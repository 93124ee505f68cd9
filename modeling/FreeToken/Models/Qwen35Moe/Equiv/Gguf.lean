import FreeToken.Models.Qwen35Moe.Gguf
import Mathlib.Data.List.Dedup

/-!
# Grouped V heads

* `reorderVHeads_spec`: where the transform takes an entry from; `ungroupV` is the same one with the
  counts exchanged.
* `untileAlong_spec`, `untileBehind_spec`: head `v` of a loaded tensor is head `tiled v` of the
  file, whatever the axis and the size of a head.
-/

namespace FreeToken.Qwen35Moe

open List RowMajor

/-! ### One axis -/

variable {α : Type*} {t u : Tensor α} {dim : ℤ} {pre post : List ℕ} {K R D N : ℕ}

theorem take_axis (pre post : List ℕ) (n : ℕ) : (pre ++ n :: post).take pre.length = pre :=
    take_left

theorem drop_axis (pre post : List ℕ) (n : ℕ) :
    (pre ++ n :: post).drop (pre.length + 1) = post := by
  rw [← drop_drop, drop_left, drop_one, tail_cons]

/-- **The transform**: the axis holds `R` times `K` heads where it held `K` times `R`. -/
theorem reorderVHeads_spec (ht : t.shape = pre ++ K * R * D :: post)
    (hdim : axisOf t dim = pre.length) :
    ∃ u, reorderVHeads t dim K R D = some u ∧ u.shape = t.shape ∧
      ∀ p < numel pre, ∀ k < K, ∀ r < R, ∀ s < numel (D :: post),
        u.data (((p * R + r) * K + k) * numel (D :: post) + s) =
          t.data (((p * K + k) * R + r) * numel (D :: post) + s) := by
  have hview :
      t.shape.take pre.length ++ [K, R, D] ++ t.shape.drop (pre.length + 1) = pre ++ K :: R :: D ::
      post := by
    rw [ht, take_axis, drop_axis, append_assoc]
    rfl
  have hnumel : numel (pre ++ K :: R :: D :: post) = numel t.shape := by
    rw [ht, numel_append, numel_append]
    simp only [numel]
    ring
  have hback : numel (pre ++ R :: K :: D :: post) = numel t.shape := by
    rw [← hnumel, numel_append, numel_append]
    simp only [numel]
    ring
  set out : Tensor α := { t with shape := pre ++ K :: R :: D :: post } with hout
  have hshape := Tensor.shape_swap (t := out) (a := pre) (m := K) (n := R) (b := D :: post) rfl
  refine ⟨{ out.swap pre.length with shape := t.shape }, ?_, rfl, fun p hp k hk r hr s hs => ?_⟩
  · rw [reorderVHeads, hdim, hview, Tensor.reshape, if_pos hnumel, Option.bind_some]
    have hswap :
        out.permute (swapAxes pre.length (pre ++ K :: R :: D :: post).length) =
        out.swap pre.length := rfl
    rw [← hout, hswap, Tensor.reshape, hshape, if_pos hback.symm]
  · exact Tensor.data_swap (t := out) rfl hp hk hr hs

theorem exists_place {i : ℕ} (hi : i < numel (pre ++ K * R * D :: post)) :
    ∃ p < numel pre, ∃ k < K, ∃ r < R, ∃ s < numel (D :: post), i = ((p * K + k) * R + r) *
      numel (D :: post) + s := by
  have hnumel : numel (pre ++ K * R * D :: post) = numel pre * K * R * numel (D :: post) := by
    rw [numel_append]
    simp only [numel]
    ring
  rw [hnumel] at hi
  have hS : 0 < numel (D :: post) := Nat.pos_of_mul_pos_left (Nat.lt_of_le_of_lt (Nat.zero_le i) hi)
  have hrow : i / numel (D :: post) < numel pre * K * R := Nat.div_lt_of_lt_mul (by rwa [mul_comm])
  have hR : 0 < R := Nat.pos_of_mul_pos_left (Nat.lt_of_le_of_lt (Nat.zero_le _) hrow)
  have hhead : i / numel (D :: post) / R < numel pre * K := Nat.div_lt_of_lt_mul (by rwa [mul_comm])
  have hK : 0 < K := Nat.pos_of_mul_pos_left (Nat.lt_of_le_of_lt (Nat.zero_le _) hhead)
  refine ⟨i / numel (D :: post) / R / K, Nat.div_lt_of_lt_mul (by rwa [mul_comm]), i /
    numel (D :: post) / R % K, Nat.mod_lt _ hK, i / numel (D :: post) % R, Nat.mod_lt _ hR, i %
    numel (D :: post), Nat.mod_lt i hS, ?_⟩
  rw [Nat.div_add_mod', Nat.div_add_mod', Nat.div_add_mod']

theorem reorderVHeads_reorderVHeads (ht : t.shape = pre ++ K * R * D :: post)
    (hdim : axisOf t dim = pre.length) :
    ∃ u v, reorderVHeads t dim K R D = some u ∧ reorderVHeads u dim R K D = some v ∧ v.Same t := by
  obtain ⟨u, hu, hushape, hudata⟩ := reorderVHeads_spec ht hdim
  have hu' : u.shape = pre ++ R * K * D :: post := by rw [hushape, ht, mul_comm R]
  have hudim : axisOf u dim = pre.length := by rw [← hdim, axisOf, axisOf, hushape]
  obtain ⟨v, hv, hvshape, hvdata⟩ := reorderVHeads_spec hu' hudim
  refine ⟨u, v, hu, hv, hvshape.trans hushape, fun i hi => ?_⟩
  rw [hvshape, hushape, ht] at hi
  obtain ⟨p, hp, k, hk, r, hr, s, hs, rfl⟩ := exists_place hi
  rw [hvdata p hp r hr k hk s hs, hudata p hp k hk r hr s hs]

/-! ### Heads -/

variable {cfg : GgufConfig} {γ : Type} {w x : Tensor γ} {ns : List ℕ}

def GgufConfig.Shared (cfg : GgufConfig) : Prop :=
  cfg.numValueHeads = cfg.numKeyHeads * cfg.numVPerK

/-- In each of `P` blocks, `q` entries and then the V heads, of `S` entries each: the first stay as
they are, and head `r` of the group `k` is the one that is tiled there. -/
structure Untiled (cfg : GgufConfig) (P q S : ℕ) (t u : ℕ → γ) : Prop where
  kept : ∀ p < P, ∀ s < q, u (p * (q + cfg.numValueHeads * S) + s) =
    t (p * (q + cfg.numValueHeads * S) + s)
  head : ∀ p < P, ∀ k < cfg.numKeyHeads, ∀ r < cfg.numVPerK, ∀ s < S,
    u (p * (q + cfg.numValueHeads * S) + (q + (k * cfg.numVPerK + r) * S + s))
      = t (p * (q + cfg.numValueHeads * S) + (q + (r * cfg.numKeyHeads + k) * S + s))

/-- Where the file is not tiled, both orders are one. -/
theorem Untiled.of_untile_eq_false (h : cfg.untile = false) (P q S : ℕ) (t : ℕ → γ) :
    Untiled cfg P q S t t := by
  refine ⟨fun _ _ _ _ => rfl, fun p _ k hk r hr s _ => ?_⟩
  have hK : cfg.numKeyHeads ≠ 0 := Nat.ne_of_gt (Nat.lt_of_le_of_lt (Nat.zero_le k) hk)
  rw [GgufConfig.numVPerK, if_pos hK] at hr
  have hN : cfg.numValueHeads ≠ 0 := by
    intro hzero
    rw [hzero, Nat.zero_div] at hr
    exact absurd hr (Nat.not_lt_zero r)
  have heq : cfg.numKeyHeads = cfg.numValueHeads := by
    rw [GgufConfig.untile] at h
    simpa [hK, hN] using h
  have hR :
    cfg.numVPerK =
    1 := by rw [GgufConfig.numVPerK, if_pos hK, ← heq, Nat.div_self (Nat.pos_of_ne_zero hK)]
  rw [← heq, Nat.div_self (Nat.pos_of_ne_zero hK)] at hr
  rw [hR, Nat.lt_one_iff.mp hr, Nat.zero_mul, zero_add, mul_one, add_zero]

theorem untileAlong_spec (dim : ℤ) (pre post : List ℕ) (D : ℕ) (hcfg : cfg.Shared)
    (hw : w.shape = pre ++ cfg.numValueHeads * D :: post) (hdim : axisOf w dim = pre.length) :
    ∃ x, untileAlong cfg w dim D = some x ∧ x.shape = w.shape ∧
      Untiled cfg (numel pre) 0 (numel (D :: post)) w.data x.data := by
  unfold untileAlong
  split_ifs with htile
  · have hw' :
      w.shape = pre ++ cfg.numVPerK * cfg.numKeyHeads * D ::
      post := by rw [hw, hcfg, mul_comm cfg.numVPerK]
    obtain ⟨x, hx, hshape, hdata⟩ := reorderVHeads_spec hw' hdim
    refine ⟨x, hx, hshape, fun _ _ _ hs => absurd hs (Nat.not_lt_zero _), fun p hp k hk r hr s hs =>
      ?_⟩
    have hleft :
        p * (0 + cfg.numValueHeads * numel (D :: post)) +
        (0 + (k * cfg.numVPerK + r) * numel (D :: post) + s)
        = ((p * cfg.numKeyHeads + k) * cfg.numVPerK + r) * numel (D :: post) + s := by
      rw [hcfg]
      ring
    have hright :
        p * (0 + cfg.numValueHeads * numel (D :: post)) +
        (0 + (r * cfg.numKeyHeads + k) * numel (D :: post) + s)
        = ((p * cfg.numVPerK + r) * cfg.numKeyHeads + k) * numel (D :: post) + s := by
      rw [hcfg]
      ring
    rw [hleft, hright]
    exact hdata p hp r hr k hk s hs
  · exact ⟨w, rfl, rfl, Untiled.of_untile_eq_false (Bool.not_eq_true _ ▸ htile) ..⟩

theorem untileBehind_spec (D : ℕ) (ns : List ℕ) (hcfg : cfg.Shared)
    (hw : w.shape = (cfg.qkRows + cfg.numValueHeads * D) :: ns) :
    ∃ x, untileBehind cfg w D = some x ∧ x.shape = w.shape ∧
      Untiled cfg 1 (cfg.qkRows * numel ns) (numel (D :: ns)) w.data x.data := by
  unfold untileBehind
  split_ifs with htile
  · have htake : w.takeRows cfg.qkRows = some { w with shape := cfg.qkRows :: ns } := by
      rw [Tensor.takeRows, hw]
      simp
    have hdrop : w.dropRows cfg.qkRows =
        some { shape := cfg.numValueHeads * D :: ns,
               data := fun j => w.data (cfg.qkRows * numel ns + j) } := by
      rw [Tensor.dropRows, hw]
      simp
    have hv := untileAlong_spec 0 [] ns D hcfg
      (w := { shape := cfg.numValueHeads * D :: ns, data := fun j =>
        w.data (cfg.qkRows * numel ns + j) }) rfl rfl
    obtain ⟨x, hx, hshape, hx'⟩ := hv
    rw [untileAlong, if_pos htile] at hx
    have hcat := Tensor.cat_spec (t := { w with shape := cfg.qkRows :: ns }) (u := x) rfl hshape
    obtain ⟨y, hy, hyshape, hleft, hright⟩ := hcat
    rw [htake, hdrop, Option.bind_some, Option.bind_some, hx, Option.bind_some]
    refine ⟨y, hy, hyshape.trans hw.symm, fun p hp s hs => ?_, fun p hp k hk r hr s hs => ?_⟩
    · rw [Nat.lt_one_iff.mp hp, Nat.zero_mul, zero_add]
      exact hleft s hs
    · have hhead := hx'.head 0 one_pos k hk r hr s hs
      simp only [Nat.zero_mul, zero_add] at hhead
      rw [Nat.lt_one_iff.mp hp, Nat.zero_mul, zero_add, zero_add, add_assoc, add_assoc, hright,
        hhead]
  · exact ⟨w, rfl, rfl, Untiled.of_untile_eq_false (Bool.not_eq_true _ ▸ htile) ..⟩

/-! ### The tensors of a file -/

variable {β F : Type} {q : Dequant β F} {t' : GgufTensor β} {file seen : List (GgufTensor β)}
  {rowBytes : ℕ → ℕ}

/-- The tensor that is loaded as the part. -/
def Part.suffix : Part → Suffix
  | .qkv => .attnQkv
  | .gate => .attnGate
  | .beta => .ssmBeta
  | .alpha => .ssmAlpha

def Part.keptRows (cfg : GgufConfig) : Part → ℕ
  | .qkv => cfg.qkRows
  | .gate | .beta | .alpha => 0

def Part.headRows (cfg : GgufConfig) : Part → ℕ
  | .qkv | .gate => cfg.valueHeadDim
  | .beta | .alpha => 1

/-- The shapes match the configuration; a row takes as many bytes as its quant type says. -/
def GgufTensor.Fits (cfg : GgufConfig) (rowBytes : ℕ → ℕ) (t : GgufTensor β) : Prop :=
  cfg.isFull t.layer = false ∧
  match t.suffix with
  | .ssmA | .ssmDtBias => t.shape = [cfg.numValueHeads]
  | .ssmConv1d => numel t.shape = cfg.attnQkvSize * cfg.convKernelDim
  | .attnQkv => t.packed.shape = [cfg.attnQkvSize, rowBytes t.ggmlType]
  | .attnGate => t.packed.shape = [cfg.numValueHeads * cfg.valueHeadDim, rowBytes t.ggmlType]
  | .ssmBeta | .ssmAlpha => t.packed.shape = [cfg.numValueHeads, rowBytes t.ggmlType]
  | .ssmOut => ∃ rows, t.shape = [rows, cfg.numValueHeads * cfg.valueHeadDim]

/-- The part of a tensor of the file, with its V heads grouped. -/
def PartOf (cfg : GgufConfig) (rowBytes : ℕ → ℕ) (file : List (GgufTensor β)) (layer : ℕ)
    (part : Part) (u : Tensor β) : Prop :=
  ∃ t ∈ file, t.layer = layer ∧ t.suffix = part.suffix ∧ u.shape = t.packed.shape ∧
    Untiled cfg 1 (part.keptRows cfg * rowBytes t.ggmlType)
      (part.headRows cfg * rowBytes t.ggmlType) t.packed.data u.data

/-- **Grouped**: the weight has the V heads of its tensors, in the order of the K heads. -/
def Weight.Grouped (cfg : GgufConfig) (q : Dequant β F) (rowBytes : ℕ → ℕ)
    (file : List (GgufTensor β)) (w : Weight β F) : Prop :=
  match w.param, w.value with
  | .aLog, .dense u => ∃ t ∈ file, t.layer = w.layer ∧ t.suffix = .ssmA ∧
    u.shape = [cfg.numValueHeads] ∧
    Untiled cfg 1 0 1 (fun i => q.log (q.neg (q.f32 t i))) u.data
  | .dtBias, .dense u => ∃ t ∈ file, t.layer = w.layer ∧ t.suffix = .ssmDtBias ∧
    u.shape = [cfg.numValueHeads] ∧
    Untiled cfg 1 0 1 (q.f32 t) u.data
  | .conv1d, .dense u => ∃ t ∈ file, t.layer = w.layer ∧ t.suffix = .ssmConv1d ∧
    u.shape = [cfg.attnQkvSize, 1, cfg.convKernelDim] ∧
    Untiled cfg 1 (cfg.qkRows * cfg.convKernelDim) (cfg.valueHeadDim * cfg.convKernelDim) (q.bf16 t)
      u.data
  | .outProj, .dense u => ∃ t ∈ file, t.layer = w.layer ∧ t.suffix = .ssmOut ∧
    ∃ rows, u.shape = [rows, cfg.numValueHeads * cfg.valueHeadDim] ∧
      Untiled cfg rows 0 cfg.valueHeadDim (q.any t) u.data
  | .inProj, .packed u => ∃ qkv gate beta alpha, PartOf cfg rowBytes file w.layer .qkv qkv ∧
    PartOf cfg rowBytes file w.layer .gate gate ∧ PartOf cfg rowBytes file w.layer .beta beta ∧
    PartOf cfg rowBytes file w.layer .alpha alpha ∧
    ((qkv.cat gate).bind fun t => (t.cat beta).bind fun t => t.cat alpha) = some u
  | .inProjPart part, .packed u => PartOf cfg rowBytes file w.layer part u
  | _, _ => False

/-- The tensors that a parameter is made of. -/
def Param.covers : Param → Suffix → Prop
  | .aLog, s => s = .ssmA
  | .dtBias, s => s = .ssmDtBias
  | .conv1d, s => s = .ssmConv1d
  | .outProj, s => s = .ssmOut
  | .inProj, s => ∃ part : Part, s = part.suffix
  | .inProjPart part, s => s = part.suffix

/-! ### One tensor -/

theorem numel_one (n : ℕ) : numel [n] = n := mul_one n

theorem numel_pair (m n : ℕ) : numel [m, n] = m * n := congrArg (m * ·) (numel_one n)

/-- One entry a head. -/
theorem Untiled.scalar {t u : ℕ → γ} (h : Untiled cfg 1 0 1 t u) {k r : ℕ}
    (hk : k < cfg.numKeyHeads) (hr : r < cfg.numVPerK) :
    u (k * cfg.numVPerK + r) = t (r * cfg.numKeyHeads + k) := by
  have hhead := h.head 0 one_pos k hk r hr 0 one_pos
  simpa only [Nat.zero_mul, zero_add, mul_one, add_zero] using hhead

theorem Untiled.exists_scalar {t u : ℕ → γ} (h : Untiled cfg 1 0 1 t u) (hcfg : cfg.Shared) {i : ℕ}
    (hi : i < cfg.numValueHeads) :
    ∃ j < cfg.numValueHeads, u i = t j := by
  rw [hcfg] at hi ⊢
  have hR : 0 < cfg.numVPerK := Nat.pos_of_mul_pos_left (Nat.lt_of_le_of_lt (Nat.zero_le i) hi)
  have hk : i / cfg.numVPerK < cfg.numKeyHeads := Nat.div_lt_of_lt_mul (by rwa [mul_comm])
  have hr := Nat.mod_lt i hR
  have hplace := h.scalar hk hr
  rw [Nat.div_add_mod'] at hplace
  refine ⟨_, ?_, hplace⟩
  have hle := Nat.mul_le_mul_right cfg.numKeyHeads hr
  rw [Nat.succ_mul, mul_comm cfg.numVPerK] at hle
  omega

theorem loadA_spec (hcfg : cfg.Shared) (hshape : t'.shape = [cfg.numValueHeads])
    (hneg : ∀ i < cfg.numValueHeads, q.negative (q.f32 t' i) = true) :
    ∃ u, loadA cfg q t' = .ok u ∧ u.shape = [cfg.numValueHeads] ∧
      Untiled cfg 1 0 1 (fun i => q.log (q.neg (q.f32 t' i))) u.data := by
  obtain ⟨x, hx, hxshape, hun⟩ := untileAlong_spec 0 [] [] 1
    (w := (⟨t'.shape, q.f32 t'⟩ : Tensor F)) hcfg (by rw [hshape, mul_one]; rfl) rfl
  have hun : Untiled cfg 1 0 1 (q.f32 t') x.data := hun
  have hxshape : x.shape = [cfg.numValueHeads] := hxshape.trans hshape
  have hall : (List.range (numel x.shape)).all (fun i => q.negative (x.data i)) = true := by
    rw [all_eq_true]
    intro i hi
    rw [hxshape, numel_one, mem_range] at hi
    obtain ⟨j, hj, hij⟩ := hun.exists_scalar hcfg hi
    rw [hij, hneg j hj]
  have hload : loadA cfg q t' = .ok { x with data := fun i => q.log (q.neg (x.data i)) } := by
    rw [loadA, hx]
    exact if_pos hall
  exact ⟨_, hload, hxshape, fun p hp s hs => congrArg (fun a => q.log (q.neg a))
    (hun.kept p hp s hs), fun p hp k hk r hr s hs => congrArg (fun a => q.log (q.neg a))
    (hun.head p hp k hk r hr s hs)⟩

theorem loadDtBias_spec (hcfg : cfg.Shared) (hshape : t'.shape = [cfg.numValueHeads]) :
    ∃ u, untileAlong cfg (⟨t'.shape, q.f32 t'⟩ : Tensor F) 0 1 = some u ∧
      u.shape = [cfg.numValueHeads] ∧
      Untiled cfg 1 0 1 (q.f32 t') u.data := by
  obtain ⟨x, hx, hxshape, hun⟩ := untileAlong_spec 0 [] [] 1
    (w := (⟨t'.shape, q.f32 t'⟩ : Tensor F)) hcfg (by rw [hshape, mul_one]; rfl) rfl
  exact ⟨x, hx, hxshape.trans hshape, hun⟩

theorem loadConv1d_spec (hcfg : cfg.Shared)
    (hshape : numel t'.shape = cfg.attnQkvSize * cfg.convKernelDim) :
    ∃ u, loadConv1d cfg q t' = some u ∧ u.shape = [cfg.attnQkvSize, 1, cfg.convKernelDim] ∧
      Untiled cfg 1 (cfg.qkRows * cfg.convKernelDim) (cfg.valueHeadDim * cfg.convKernelDim)
        (q.bf16 t') u.data := by
  have hfirst : numel [cfg.attnQkvSize, cfg.convKernelDim] = numel t'.shape := by
    rw [hshape, numel, numel_one]
  have hthen :
      numel [cfg.attnQkvSize, 1, cfg.convKernelDim] =
      numel [cfg.attnQkvSize, cfg.convKernelDim] := by
    rw [numel, numel, numel_one, numel, numel_one, one_mul]
  obtain ⟨x, hx, hxshape, hun⟩ := untileBehind_spec cfg.valueHeadDim [cfg.convKernelDim]
    (w := (⟨[cfg.attnQkvSize, cfg.convKernelDim], q.bf16 t'⟩ : Tensor F)) hcfg rfl
  refine ⟨{ x with shape := [cfg.attnQkvSize, 1, cfg.convKernelDim] }, ?_, rfl, ?_⟩
  · rw [loadConv1d, Tensor.reshape, if_pos hfirst, Option.bind_some, hx, Option.bind_some,
      Tensor.reshape, hxshape, if_pos hthen]
  · rw [numel_one, numel_pair] at hun
    exact hun

theorem loadOut_spec {rows : ℕ} (hcfg : cfg.Shared)
    (hshape : t'.shape = [rows, cfg.numValueHeads * cfg.valueHeadDim]) :
    ∃ u, untileAlong cfg (⟨t'.shape, q.any t'⟩ : Tensor F) 1 cfg.valueHeadDim = some u ∧
      u.shape = [rows, cfg.numValueHeads * cfg.valueHeadDim] ∧
        Untiled cfg rows 0 cfg.valueHeadDim (q.any t') u.data := by
  obtain ⟨x, hx, hxshape, hun⟩ := untileAlong_spec 1 [rows] [] cfg.valueHeadDim
    (w := (⟨t'.shape, q.any t'⟩ : Tensor F)) hcfg hshape rfl
  refine ⟨x, hx, hxshape.trans hshape, ?_⟩
  rw [numel_one, numel_one] at hun
  exact hun

theorem untileRows_spec {rows cols : ℕ} (hcfg : cfg.Shared)
    (hw : w.shape = [cfg.numValueHeads * rows, cols]) :
    ∃ u, untileAlong cfg w 0 rows = some u ∧ u.shape = w.shape ∧
      Untiled cfg 1 (0 * cols) (rows * cols) w.data u.data := by
  obtain ⟨x, hx, hxshape, hun⟩ := untileAlong_spec 0 [] [cols] rows hcfg hw rfl
  rw [numel_pair] at hun
  rw [Nat.zero_mul]
  exact ⟨x, hx, hxshape, hun⟩

variable {part : Part}

theorem loadPart_spec (hcfg : cfg.Shared) (hfits : t'.Fits cfg rowBytes)
    (hsuffix : t'.suffix = part.suffix) :
    ∃ u, loadPart cfg part t' = some u ∧ u.shape = t'.packed.shape ∧
      Untiled cfg 1 (part.keptRows cfg * rowBytes t'.ggmlType)
        (part.headRows cfg * rowBytes t'.ggmlType) t'.packed.data u.data := by
  have hrows := hfits.2
  rw [hsuffix] at hrows
  cases part with
  | qkv =>
    obtain ⟨x, hx, hxshape, hun⟩ :=
      untileBehind_spec cfg.valueHeadDim [rowBytes t'.ggmlType] hcfg hrows
    rw [numel_one, numel_pair] at hun
    exact ⟨x, hx, hxshape, hun⟩
  | gate => exact untileRows_spec hcfg hrows
  | beta => exact untileRows_spec hcfg (by rw [mul_one]; exact hrows)
  | alpha => exact untileRows_spec hcfg (by rw [mul_one]; exact hrows)

variable {layer : ℕ}

theorem PartOf.shape {u : Tensor β} (h : PartOf cfg rowBytes file layer part u)
    (hfits : ∀ t ∈ file, t.layer < cfg.numLayers → t.Fits cfg rowBytes)
    (hlayer : layer < cfg.numLayers) :
    ∃ t ∈ file, t.layer = layer ∧ t.suffix = part.suffix ∧
      ∃ n, u.shape = [n, rowBytes t.ggmlType] := by
  obtain ⟨t, ht, rfl, hsuffix, hshape, -⟩ := h
  have hrows := (hfits t ht hlayer).2
  refine ⟨t, ht, rfl, hsuffix, ?_⟩
  rw [hsuffix] at hrows
  rw [hshape]
  cases part with
  | qkv => exact ⟨_, hrows⟩
  | gate => exact ⟨_, hrows⟩
  | beta => exact ⟨_, hrows⟩
  | alpha => exact ⟨_, hrows⟩

/-! ### The input projection -/

variable {quantType : ℕ → Suffix → Option ℕ}

theorem fuseInProj_spec {qkv gate beta alpha : Tensor β}
    (hquant : ∀ t ∈ file, quantType t.layer t.suffix = some t.ggmlType)
    (hfits : ∀ t ∈ file, t.layer < cfg.numLayers → t.Fits cfg rowBytes)
    (hlayer : layer < cfg.numLayers)
    (hqkv : PartOf cfg rowBytes file layer .qkv qkv)
    (hgate : PartOf cfg rowBytes file layer .gate gate)
    (hbeta : PartOf cfg rowBytes file layer .beta beta)
    (halpha : PartOf cfg rowBytes file layer .alpha alpha) :
    ∃ ws, fuseInProj (F := F) quantType layer qkv gate beta alpha = some ws ∧
      (∀ w ∈ ws, w.Grouped cfg q rowBytes file) ∧
      ∀ part : Part, ∃ w ∈ ws, w.layer = layer ∧ w.param.covers part.suffix := by
  obtain ⟨tq, htq, rfl, hsq, nq, hshq⟩ := hqkv.shape hfits hlayer
  obtain ⟨tg, htg, hlg, hsg, ng, hshg⟩ := hgate.shape hfits hlayer
  obtain ⟨tb, htb, hlb, hsb, nb, hshb⟩ := hbeta.shape hfits hlayer
  obtain ⟨ta, hta, hla, hsa, na, hsha⟩ := halpha.shape hfits hlayer
  unfold fuseInProj
  dsimp only
  split_ifs with htypes
  · -- one quant type: the rows are equally long, and can be put together
    obtain ⟨type, htype⟩ := List.length_eq_one_iff.mp htypes
    have hone : ∀ t ∈ file, t.layer = tq.layer → ∀ part : Part, t.suffix = part.suffix →
        some t.ggmlType = type := by
      intro t ht hl part hs
      have hmem :
          quantType tq.layer part.suffix ∈
          [quantType tq.layer .attnQkv, quantType tq.layer .attnGate,
          quantType tq.layer .ssmBeta, quantType tq.layer .ssmAlpha] := by
        cases part <;> simp [Part.suffix]
      rw [← mem_dedup, htype, mem_singleton] at hmem
      rw [← hquant t ht, hl, hs, hmem]
    have hbytes : ∀ t ∈ file, t.layer = tq.layer → ∀ part : Part, t.suffix = part.suffix →
        rowBytes t.ggmlType = rowBytes tq.ggmlType := fun t ht hl part hs =>
      congrArg rowBytes
        (Option.some.inj ((hone t ht hl part hs).trans (hone tq htq rfl .qkv hsq).symm))
    rw [hbytes tg htg hlg .gate hsg] at hshg
    rw [hbytes tb htb hlb .beta hsb] at hshb
    rw [hbytes ta hta hla .alpha hsa] at hsha
    obtain ⟨u₁, hu₁, hs₁, -⟩ := Tensor.cat_spec hshq hshg
    obtain ⟨u₂, hu₂, hs₂, -⟩ := Tensor.cat_spec hs₁ hshb
    obtain ⟨u₃, hu₃, -⟩ := Tensor.cat_spec hs₂ hsha
    refine ⟨[⟨tq.layer, .inProj, .packed u₃⟩], ?_, fun w hw => ?_, fun part => ?_⟩
    · rw [hu₁, Option.bind_some, hu₂, Option.bind_some, hu₃, Option.map_some]
    · rw [mem_singleton] at hw
      subst hw
      refine ⟨qkv, gate, beta, alpha, hqkv, hgate, hbeta, halpha, ?_⟩
      rw [hu₁, Option.bind_some, hu₂, Option.bind_some, hu₃]
    · exact ⟨_, mem_singleton_self _, rfl, part, rfl⟩
  · refine ⟨_, rfl, fun w hw => ?_, fun part => ?_⟩
    · simp only [mem_cons, not_mem_nil, or_false] at hw
      rcases hw with rfl | rfl | rfl | rfl
      · exact hqkv
      · exact hgate
      · exact hbeta
      · exact halpha
    · cases part with
      | qkv => exact ⟨⟨tq.layer, .inProjPart .qkv, .packed qkv⟩, by simp, rfl, rfl⟩
      | gate => exact ⟨⟨tq.layer, .inProjPart .gate, .packed gate⟩, by simp, rfl, rfl⟩
      | beta => exact ⟨⟨tq.layer, .inProjPart .beta, .packed beta⟩, by simp, rfl, rfl⟩
      | alpha => exact ⟨⟨tq.layer, .inProjPart .alpha, .packed alpha⟩, by simp, rfl, rfl⟩

/-! ### The loop -/

theorem Part.suffix_injective : Function.Injective Part.suffix := by
  intro a b h
  cases a <;> cases b <;> first | rfl | cases h

def Seen (seen : List (GgufTensor β)) (layer : ℕ) (part : Part) : Prop :=
  ∃ t ∈ seen, t.layer = layer ∧ t.suffix = part.suffix

theorem seen_append {t : GgufTensor β} :
    Seen (seen ++ [t]) layer part ↔ Seen seen layer part ∨ t.layer = layer ∧
      t.suffix = part.suffix := by
  constructor
  · rintro ⟨t', ht', h⟩
    rcases List.mem_append.mp ht' with hmem | hmem
    · exact .inl ⟨t', hmem, h⟩
    · rw [mem_singleton] at hmem
      exact .inr (hmem ▸ h)
  · rintro (⟨t', ht', h⟩ | h)
    · exact ⟨t', mem_append_left _ ht', h⟩
    · exact ⟨t, mem_append_right _ (mem_singleton_self t), h⟩

/-- What the loop has, when it has read `seen`: a layer waits while it lacks a part, and everything
else is yielded. -/
structure LoopInv (cfg : GgufConfig) (q : Dequant β F) (rowBytes : ℕ → ℕ)
    (file seen : List (GgufTensor β)) (buf : InProjBuf β) (out : List (Weight β F)) : Prop where
  waits : ∀ layer slots, buf.lookup layer = some slots → layer < cfg.numLayers ∧
    (∀ part, (slots part).isSome ↔ Seen seen layer part) ∧ (∃ part, ¬Seen seen layer part) ∧
      (∃ part, Seen seen layer part) ∧
    ∀ part u, slots part = some u → PartOf cfg rowBytes file layer part u
  rests : ∀ layer < cfg.numLayers, buf.lookup layer = none → (∀ part, ¬Seen seen layer part) ∨
    ∀ part, Seen seen layer part
  grouped : ∀ w ∈ out, w.Grouped cfg q rowBytes file
  covered : ∀ t ∈ seen, t.layer < cfg.numLayers →
    (∃ w ∈ out, w.layer = t.layer ∧ w.param.covers t.suffix) ∨
      ∃ (part : Part) (slots : Part → Option (Tensor β)), t.suffix = part.suffix ∧
        buf.lookup t.layer = some slots

variable {buf : InProjBuf β} {out ws : List (Weight β F)}

/-- A tensor that is no part of an input projection. -/
theorem LoopInv.yield (h : LoopInv cfg q rowBytes file seen buf out)
    (hpart : t'.layer < cfg.numLayers → ∀ part : Part, t'.suffix ≠ part.suffix)
    (hgrouped : ∀ w ∈ ws, w.Grouped cfg q rowBytes file)
    (hcovers : t'.layer < cfg.numLayers → ∃ w ∈ ws, w.layer = t'.layer ∧ w.param.covers t'.suffix) :
    LoopInv cfg q rowBytes file (seen ++ [t']) buf (out ++ ws) := by
  have hseen :
      ∀ layer < cfg.numLayers, ∀ part, Seen (seen ++ [t']) layer part ↔ Seen seen layer part := by
    intro layer hlayer part
    rw [seen_append, or_iff_left_iff_imp]
    rintro ⟨rfl, hsuffix⟩
    exact absurd hsuffix (hpart hlayer part)
  refine ⟨fun layer slots hslots => ?_, fun layer hlayer hnone => ?_, fun w hw =>
    ?_, fun t ht hlayer => ?_⟩
  · obtain ⟨hlayer, hparts, hlacks, hhas, hof⟩ := h.waits layer slots hslots
    simp only [hseen layer hlayer]
    exact ⟨hlayer, hparts, hlacks, hhas, hof⟩
  · simp only [hseen layer hlayer]
    exact h.rests layer hlayer hnone
  · exact (List.mem_append.mp hw).elim (h.grouped w) (hgrouped w)
  · rcases List.mem_append.mp ht with hmem | hmem
    · refine (h.covered t hmem hlayer).imp (fun ⟨w, hw, hc⟩ => ⟨w, mem_append_left _ hw, hc⟩) id
    · rw [mem_singleton] at hmem
      subst hmem
      obtain ⟨w, hw, hc⟩ := hcovers hlayer
      exact .inl ⟨w, mem_append_right _ hw, hc⟩

/-- **A part** of an input projection waits for the others. -/
theorem LoopInv.addPart (h : LoopInv cfg q rowBytes file seen buf out)
    (hcfg : cfg.Shared) (hquant : ∀ t ∈ file, quantType t.layer t.suffix = some t.ggmlType)
    (hfits : ∀ t ∈ file, t.layer < cfg.numLayers → t.Fits cfg rowBytes) (ht : t' ∈ file)
    (hlayer : t'.layer < cfg.numLayers)
    (hsuffix : t'.suffix = part.suffix) (hfresh : ¬Seen seen t'.layer part) :
    ∃ r, Qwen35Moe.addPart (F := F) cfg quantType buf part t' = some r ∧
      LoopInv cfg q rowBytes file (seen ++ [t']) r.1 (out ++ r.2) := by
  obtain ⟨u, hu, hushape, hun⟩ := loadPart_spec hcfg (hfits t' ht hlayer) hsuffix
  unfold Qwen35Moe.addPart
  rw [hu, Option.bind_some]
  dsimp only
  set slots := Function.update ((buf.lookup t'.layer).getD fun _ => none) part (some u) with hslots
  have hother :
      ∀ part', part' ≠ part → slots part' = ((buf.lookup t'.layer).getD fun _ => none) part' :=
      fun part' hne =>
    Function.update_of_ne hne ..
  have hself : slots part = some u := Function.update_self ..
  -- the slots are those of the parts that were read
  have hold :
      ∀ part', part' ≠ part → (Seen (seen ++ [t']) t'.layer part' ↔ Seen seen t'.layer part') := by
    intro part' hne
    rw [seen_append, or_iff_left_iff_imp]
    rintro ⟨-, hs⟩
    exact absurd (Part.suffix_injective (hs.symm.trans hsuffix)) hne
  have hnew : Seen (seen ++ [t']) t'.layer part := seen_append.mpr (.inr ⟨rfl, hsuffix⟩)
  have hparts : ∀ part', (slots part').isSome ↔ Seen (seen ++ [t']) t'.layer part' := by
    intro part'
    by_cases hne : part' = part
    · subst hne
      rw [hself]
      exact ⟨fun _ => hnew, fun _ => rfl⟩
    · rw [hother part' hne, hold part' hne]
      cases hlook : buf.lookup t'.layer with
      | none =>
        have hnone : ∀ part, ¬Seen seen t'.layer part :=
          (h.rests t'.layer hlayer hlook).resolve_right fun hall => hfresh (hall part)
        exact ⟨fun hs => (by cases hs), fun hs => absurd hs (hnone part')⟩
      | some old => exact (h.waits _ old hlook).2.1 part'
  have hof : ∀ part' u', slots part' = some u' → PartOf cfg rowBytes file t'.layer part' u' := by
    intro part' u' hu'
    by_cases hne : part' = part
    · subst hne
      rw [hself, Option.some.injEq] at hu'
      subst hu'
      exact ⟨t', ht, rfl, hsuffix, hushape, hun⟩
    · rw [hother part' hne] at hu'
      cases hlook : buf.lookup t'.layer with
      | none =>
        rw [hlook] at hu'
        cases hu'
      | some old =>
        rw [hlook] at hu'
        exact (h.waits _ old hlook).2.2.2.2 part' u' hu'
  have hother_layer :
      ∀ layer, layer ≠ t'.layer → ∀ part, Seen (seen ++ [t']) layer part ↔
      Seen seen layer part := by
    intro layer hne part
    rw [seen_append, or_iff_left_iff_imp]
    rintro ⟨rfl, -⟩
    exact absurd rfl hne
  split
  · -- the last part: the layer is yielded
    rename_i qkv gate beta alpha hqkv hgate hbeta halpha
    obtain ⟨ws, hws, hgrouped, hcovers⟩ := fuseInProj_spec (F := F) (q := q) hquant hfits hlayer
      (hof _ _ hqkv) (hof _ _ hgate) (hof _ _ hbeta) (hof _ _ halpha)
    have hall : ∀ part, Seen (seen ++ [t']) t'.layer part := by
      intro part
      rw [← hparts]
      cases part <;> simp only [hqkv, hgate, hbeta, halpha, Option.isSome_some]
    refine ⟨(buf.erase t'.layer, ws), by rw [hws, Option.map_some],
      ⟨fun layer slots' hl => ?_, fun layer hlt hl => ?_, fun w hw => ?_, fun t htmem hlt => ?_⟩⟩
    · have hne : layer ≠ t'.layer := by
        rintro rfl
        rw [AList.lookup_erase] at hl
        cases hl
      rw [AList.lookup_erase_ne hne] at hl
      simp only [hother_layer layer hne]
      exact h.waits layer slots' hl
    · by_cases hne : layer = t'.layer
      · subst hne
        exact .inr hall
      · rw [AList.lookup_erase_ne hne] at hl
        simp only [hother_layer layer hne]
        exact h.rests layer hlt hl
    · exact (List.mem_append.mp hw).elim (h.grouped w) (hgrouped w)
    · rcases List.mem_append.mp htmem with hmem | hmem
      · rcases h.covered t hmem hlt with ⟨w, hw, hc⟩ | ⟨part', slots', hs, hl⟩
        · exact .inl ⟨w, mem_append_left _ hw, hc⟩
        · by_cases hne : t.layer = t'.layer
          · obtain ⟨w, hw, hwlayer, hc⟩ := hcovers part'
            exact .inl ⟨w, mem_append_right _ hw, hwlayer.trans hne.symm, hs ▸ hc⟩
          · exact .inr ⟨part', slots', hs, (AList.lookup_erase_ne hne).trans hl⟩
      · rw [mem_singleton] at hmem
        subst hmem
        obtain ⟨w, hw, hwlayer, hc⟩ := hcovers part
        exact .inl ⟨w, mem_append_right _ hw, hwlayer, hsuffix ▸ hc⟩
  · -- a part is still missing
    rename_i hmissing
    have hlacks : ∃ part, ¬Seen (seen ++ [t']) t'.layer part := by
      by_contra hall
      push Not at hall
      obtain ⟨qkv, hqkv⟩ := Option.isSome_iff_exists.mp ((hparts .qkv).mpr (hall .qkv))
      obtain ⟨gate, hgate⟩ := Option.isSome_iff_exists.mp ((hparts .gate).mpr (hall .gate))
      obtain ⟨beta, hbeta⟩ := Option.isSome_iff_exists.mp ((hparts .beta).mpr (hall .beta))
      obtain ⟨alpha, halpha⟩ := Option.isSome_iff_exists.mp ((hparts .alpha).mpr (hall .alpha))
      exact hmissing qkv gate beta alpha hqkv hgate hbeta halpha
    refine ⟨(buf.insert t'.layer slots, []), rfl,
      ⟨fun layer slots' hl => ?_, fun layer hlt hl => ?_, fun w hw => ?_, fun t htmem hlt => ?_⟩⟩
    · by_cases hne : layer = t'.layer
      · subst hne
        rw [AList.lookup_insert, Option.some.injEq] at hl
        subst hl
        exact ⟨hlayer, hparts, hlacks, ⟨part, hnew⟩, hof⟩
      · rw [AList.lookup_insert_ne hne] at hl
        simp only [hother_layer layer hne]
        exact h.waits layer slots' hl
    · have hne : layer ≠ t'.layer := by
        rintro rfl
        rw [AList.lookup_insert] at hl
        cases hl
      rw [AList.lookup_insert_ne hne] at hl
      simp only [hother_layer layer hne]
      exact h.rests layer hlt hl
    · rw [append_nil] at hw
      exact h.grouped w hw
    · rw [append_nil]
      rcases List.mem_append.mp htmem with hmem | hmem
      · refine (h.covered t hmem hlt).imp_right fun ⟨part', slots', hs, hl⟩ => ?_
        by_cases hne : t.layer = t'.layer
        · exact ⟨part', slots, hs, hne ▸ AList.lookup_insert ..⟩
        · exact ⟨part', slots', hs, (AList.lookup_insert_ne hne).trans hl⟩
      · rw [mem_singleton] at hmem
        subst hmem
        exact .inr ⟨part, slots, hsuffix, AList.lookup_insert ..⟩

def GgufTensor.key (t : GgufTensor β) : ℕ × Suffix := (t.layer, t.suffix)

/-- A file whose tensors match the configuration: no name twice, `ssm_a` negative, and the input
projections complete. -/
structure FileOk (cfg : GgufConfig) (q : Dequant β F) (rowBytes : ℕ → ℕ)
    (file : List (GgufTensor β)) : Prop where
  keys : (file.map GgufTensor.key).Nodup
  fits : ∀ t ∈ file, t.layer < cfg.numLayers → t.Fits cfg rowBytes
  negative : ∀ t ∈ file, t.suffix = .ssmA → ∀ i < cfg.numValueHeads, q.negative (q.f32 t i) = true
  complete : ∀ t ∈ file, t.layer < cfg.numLayers → ∀ part : Part, t.suffix = part.suffix →
    ∀ part', Seen file t.layer part'

theorem FileOk.scan (h : FileOk cfg q rowBytes file) {t : GgufTensor β} (ht : t ∈ file) :
    scanQuantTypes file t.layer t.suffix = some t.ggmlType := by
  have hsome :
    (file.reverse.find? fun t' => t'.layer == t.layer && t'.suffix == t.suffix).isSome := by
    rw [List.find?_isSome]
    exact ⟨t, List.mem_reverse.mpr ht, by simp⟩
  obtain ⟨t', ht'⟩ := Option.isSome_iff_exists.mp hsome
  have hkey : t'.key = t.key := by
    have hp := List.find?_some ht'
    rw [Bool.and_eq_true, beq_iff_eq, beq_iff_eq] at hp
    exact Prod.ext hp.1 hp.2
  have heq : t' = t :=
    inj_on_of_nodup_map h.keys (List.mem_reverse.mp (mem_of_find?_eq_some ht')) ht hkey
  rw [scanQuantTypes, ht', heq, Option.map_some]

theorem loadTensor_spec (h : LoopInv cfg q rowBytes file seen buf out) (hcfg : cfg.Shared)
    (hfile : FileOk cfg q rowBytes file)
    (hquant : ∀ t ∈ file, quantType t.layer t.suffix = some t.ggmlType) (ht : t' ∈ file)
    (hfresh : ∀ part : Part, t'.suffix = part.suffix → ¬Seen seen t'.layer part) :
    ∃ r, loadTensor cfg q quantType buf t' = .ok r ∧
      LoopInv cfg q rowBytes file (seen ++ [t']) r.1 (out ++ r.2) := by
  unfold loadTensor
  by_cases hskip : cfg.numLayers ≤ t'.layer
  · rw [if_pos hskip]
    exact ⟨_, rfl, h.yield (fun hlt => absurd hskip (not_le.mpr hlt)) (fun w hw => by cases hw)
      fun hlt => absurd hskip (not_le.mpr hlt)⟩
  rw [if_neg hskip]
  have hlayer : t'.layer < cfg.numLayers := not_le.mp hskip
  have hfits := hfile.fits t' ht hlayer
  obtain ⟨hfull, hshape⟩ := hfits
  have hpart :
      ∀ part : Part, t'.suffix = part.suffix →
        ∃ r, orShape (Qwen35Moe.addPart cfg quantType buf part t') = .ok r ∧
          LoopInv cfg q rowBytes file (seen ++ [t']) r.1 (out ++ r.2) := by
    intro part hsuffix
    obtain ⟨r, hr, hinv⟩ := h.addPart hcfg hquant hfile.fits ht hlayer hsuffix (hfresh part hsuffix)
    exact ⟨r, by rw [hr]; rfl, hinv⟩
  -- a single weight that covers the tensor
  have hdense :
      ∀ w : Weight β F, w.layer = t'.layer → w.param.covers t'.suffix →
      (∀ part : Part, t'.suffix ≠ part.suffix) →
      w.Grouped cfg q rowBytes file → LoopInv cfg q rowBytes file (seen ++ [t']) buf
        (out ++ [w]) := by
    intro w hwlayer hcovers hnot hgrouped
    refine h.yield (fun _ => hnot) (fun w' hw' => ?_) fun _ =>
      ⟨w, mem_singleton_self w, hwlayer, hcovers⟩
    rw [List.mem_singleton.mp hw']
    exact hgrouped
  cases hs : t'.suffix with
  | ssmA =>
    rw [hs] at hshape
    obtain ⟨u, hu, hushape, hun⟩ := loadA_spec hcfg hshape (hfile.negative t' ht hs)
    exact ⟨_, by rw [hu]; rfl, hdense ⟨t'.layer, .aLog, .dense u⟩ rfl hs
      (fun part => by rw [hs]; cases part <;> decide) ⟨t', ht, rfl, hs, hushape, hun⟩⟩
  | ssmDtBias =>
    rw [hs] at hshape
    obtain ⟨u, hu, hushape, hun⟩ := loadDtBias_spec (q := q) hcfg hshape
    exact ⟨_, by rw [hu]; rfl, hdense ⟨t'.layer, .dtBias, .dense u⟩ rfl hs
      (fun part => by rw [hs]; cases part <;> decide) ⟨t', ht, rfl, hs, hushape, hun⟩⟩
  | ssmConv1d =>
    rw [hs] at hshape
    obtain ⟨u, hu, hushape, hun⟩ := loadConv1d_spec (q := q) hcfg hshape
    exact ⟨_, by rw [hu]; rfl, hdense ⟨t'.layer, .conv1d, .dense u⟩ rfl hs
      (fun part => by rw [hs]; cases part <;> decide) ⟨t', ht, rfl, hs, hushape, hun⟩⟩
  | ssmOut =>
    rw [hs] at hshape
    obtain ⟨rows, hrows⟩ := hshape
    obtain ⟨u, hu, hushape, hun⟩ := loadOut_spec (q := q) hcfg hrows
    exact ⟨_, by rw [hfull, hu]; rfl, hdense ⟨t'.layer, .outProj, .dense u⟩ rfl hs
      (fun part => by rw [hs]; cases part <;> decide) ⟨t', ht, rfl, hs, rows, hushape, hun⟩⟩
  | attnQkv =>
    rw [hfull]
    exact hpart .qkv hs
  | attnGate =>
    rw [hfull]
    exact hpart .gate hs
  | ssmBeta =>
    rw [hfull]
    exact hpart .beta hs
  | ssmAlpha =>
    rw [hfull]
    exact hpart .alpha hs

theorem loadLoop_spec (hcfg : cfg.Shared) (hfile : FileOk cfg q rowBytes file)
    (hquant : ∀ t ∈ file, quantType t.layer t.suffix = some t.ggmlType)
    (rest : List (GgufTensor β)) :
    ∀ seen buf out, seen ++ rest = file → LoopInv cfg q rowBytes file seen buf out →
      ∃ r, loadLoop cfg q quantType rest buf out = .ok r ∧
        LoopInv cfg q rowBytes file file r.1 r.2 := by
  induction rest with
  | nil =>
    rintro seen buf out rfl h
    rw [append_nil] at h ⊢
    exact ⟨_, rfl, h⟩
  | cons t rest ih =>
    intro seen buf out hsplit h
    have ht : t ∈ file := hsplit ▸ mem_append_right _ mem_cons_self
    have hfresh : ∀ part : Part, t.suffix = part.suffix → ¬Seen seen t.layer part := by
      rintro part hsuffix ⟨t', ht', hlayer, hsuffix'⟩
      have hkeys := hfile.keys
      rw [← hsplit, map_append, nodup_append] at hkeys
      exact hkeys.2.2 t'.key (mem_map_of_mem ht') t.key (mem_map_of_mem mem_cons_self)
        (Prod.ext hlayer (hsuffix'.trans hsuffix.symm))
    obtain ⟨r, hr, hinv⟩ := loadTensor_spec h hcfg hfile hquant ht hfresh
    rw [loadLoop, hr]
    exact ih (seen ++ [t]) r.1 (out ++ r.2) (by rw [append_assoc]; exact hsplit) hinv

theorem loopInv_nil : LoopInv cfg q rowBytes file [] ∅ [] := by
  refine ⟨fun layer slots hl => ?_, fun layer _ _ => .inl fun part => ?_, fun w hw =>
    ?_, fun t ht => ?_⟩
  · rw [AList.lookup_empty] at hl
    cases hl
  · rintro ⟨t, ht, -⟩
    cases ht
  · cases hw
  · cases ht

/-- **The V heads are grouped**: the un-tiling undoes the converter's reorder along any axis; and a
file whose tensors match the configuration loads, each of its tensors becomes a part of a weight,
and in every weight head `r` of group `k` is the one that the file has at `r * K + k`, with the rows
of q and k as they were. -/
theorem vHeads_grouped (hcfg : cfg.Shared) (hfile : FileOk cfg q rowBytes file) :
    (∀ (γ : Type) (t : Tensor γ) (dim : ℤ) (pre post : List ℕ) (K R D : ℕ), t.shape = pre ++ K * R *
      D :: post →
      axisOf t dim = pre.length →
      ∃ u v, reorderVHeads t dim K R D = some u ∧ ungroupV u dim K R D = some v ∧ v.Same t) ∧
    ∃ ws, loadWeights cfg q file = .ok ws ∧ (∀ w ∈ ws, w.Grouped cfg q rowBytes file) ∧
      ∀ t ∈ file, t.layer < cfg.numLayers → ∃ w ∈ ws, w.layer = t.layer ∧
        w.param.covers t.suffix := by
  refine ⟨fun γ t dim pre post K R D ht hdim => reorderVHeads_reorderVHeads ht hdim, ?_⟩
  obtain ⟨r, hr, hinv⟩ :=
    loadLoop_spec hcfg hfile (fun t ht => hfile.scan ht) file [] ∅ [] rfl loopInv_nil
  -- no layer waits, since none lacks a part
  have hlookup : ∀ layer, r.1.lookup layer = none := by
    intro layer
    by_contra hsome
    obtain ⟨slots, hslots⟩ := Option.ne_none_iff_exists'.mp hsome
    obtain ⟨hlayer, -, ⟨part, hlacks⟩, ⟨part', t, ht, rfl, hsuffix⟩, -⟩ :=
      hinv.waits layer slots hslots
    exact hlacks (hfile.complete t ht hlayer part' hsuffix part)
  have hkeys : r.1.keys = [] := by
    rw [eq_nil_iff_forall_not_mem]
    intro layer hmem
    have hsome := AList.lookup_isSome.mpr (AList.mem_keys.mpr hmem)
    rw [hlookup layer] at hsome
    cases hsome
  refine ⟨r.2, ?_, hinv.grouped, fun t ht hlayer => ?_⟩
  · rw [loadWeights, hr]
    exact if_pos (by rw [hkeys]; rfl)
  · refine (hinv.covered t ht hlayer).resolve_right ?_
    rintro ⟨-, slots, -, hslots⟩
    rw [hlookup t.layer] at hslots
    cases hslots

/-! ### A small file -/

def smallConfig : GgufConfig :=
  { numLayers := 1, isFull := fun _ => false, numKeyHeads := 2, keyHeadDim := 1, numValueHeads := 6,
    valueHeadDim := 2, convKernelDim := 4 }

/-- The entries of every tensor are `-1`, `-2` and so on. -/
def smallDequant : Dequant ℤ ℤ where
  f32 _ i := -1 - i
  bf16 _ i := -1 - i
  any _ i := -1 - i
  negative a := decide (a < 0)
  neg a := -a
  log a := a

def smallTensor (suffix : Suffix) (shape rows : List ℕ) : GgufTensor ℤ :=
  ⟨0, suffix, 0, shape, ⟨rows, fun i => i⟩⟩

def smallFile : List (GgufTensor ℤ) :=
  [smallTensor .ssmA [6] [6], smallTensor .ssmDtBias [6] [6], smallTensor .ssmConv1d [16, 4]
    [16, 4],
    smallTensor .attnQkv [16, 1] [16, 1], smallTensor .attnGate [12, 1] [12, 1], smallTensor
      .ssmBeta [6, 1] [6, 1],
    smallTensor .ssmAlpha [6, 1] [6, 1], smallTensor .ssmOut [1, 12] [1, 12]]

theorem smallFile_ok : FileOk smallConfig smallDequant (fun _ => 1) smallFile where
  keys := by decide
  fits t ht _ := by
    simp only [smallFile, mem_cons, not_mem_nil, or_false] at ht
    rcases ht with rfl | rfl | rfl | rfl | rfl | rfl | rfl | rfl
    case inr.inr.inr.inr.inr.inr.inr => exact ⟨rfl, 1, rfl⟩
    all_goals exact ⟨rfl, rfl⟩
  negative t _ _ i _ := by
    simp only [smallDequant, decide_eq_true_eq]
    omega
  complete t ht _ part _ part' := by
    have hlayer : t.layer = 0 := by
      simp only [smallFile, mem_cons, not_mem_nil, or_false] at ht
      rcases ht with rfl | rfl | rfl | rfl | rfl | rfl | rfl | rfl <;> rfl
    rw [hlayer]
    cases part' with
    | qkv => exact ⟨smallTensor .attnQkv [16, 1] [16, 1], by simp [smallFile], rfl, rfl⟩
    | gate => exact ⟨smallTensor .attnGate [12, 1] [12, 1], by simp [smallFile], rfl, rfl⟩
    | beta => exact ⟨smallTensor .ssmBeta [6, 1] [6, 1], by simp [smallFile], rfl, rfl⟩
    | alpha => exact ⟨smallTensor .ssmAlpha [6, 1] [6, 1], by simp [smallFile], rfl, rfl⟩

theorem vHeads_grouped_small :
    ∃ ws, loadWeights smallConfig smallDequant smallFile = .ok ws ∧
      ∀ w ∈ ws, w.Grouped smallConfig smallDequant (fun _ => 1) smallFile := by
  have hcfg : smallConfig.Shared := rfl
  obtain ⟨-, ws, hws, hgrouped, -⟩ := vHeads_grouped hcfg smallFile_ok
  exact ⟨ws, hws, hgrouped⟩

end FreeToken.Qwen35Moe
