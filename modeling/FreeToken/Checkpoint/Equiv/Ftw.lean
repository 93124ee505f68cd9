import FreeToken.Checkpoint.Equiv.FtwReader
import FreeToken.Lib.MapM

/-!
# The FreeToken Weight checkpoint round-trips

* `entriesFrom_spec`: the bytes of a tensor in the region.
* `loadFlat_spec`: the windows of the layers of an expert bank.
* `ftw_roundTrip`: what is written is read back.
-/

namespace FreeToken

open List

namespace Ftw

variable {elsize : Text → ℕ}

/-! ### The region -/

theorem slice_slice {α : Type} (l : List α) {a b m n : ℕ} (h : b + m ≤ n) :
    ((((l.drop a).take n).drop b).take m) = (l.drop (a + b)).take m := by
  rw [drop_take, take_take, drop_drop, min_eq_left (by omega)]

theorem entriesFrom_spec (off : ℕ) (tensors : List (Tensor elsize)) :
    List.Forall₂ (fun t e => ∃ start, e = entryOf t (off + start) ∧ start % align = 0 ∧
      start + alignUp t.raw.length ≤ (regionOf tensors).length ∧
      ((regionOf tensors).drop start).take t.raw.length = t.raw) tensors
      (entriesFrom off tensors) := by
  induction tensors generalizing off with
  | nil => exact List.Forall₂.nil
  | cons first tensors ih =>
    have hregion : regionOf (first :: tensors) = padded first.raw ++ regionOf tensors := by
      unfold regionOf
      rw [flatMap_cons]
    have hlen := length_padded first.raw
    refine List.Forall₂.cons ⟨0, rfl, rfl, ?_, ?_⟩ ((ih (off + (padded first.raw).length)).imp ?_)
    · rw [hregion, length_append, hlen]
      omega
    · rw [hregion, drop_zero]
      unfold padded
      rw [append_assoc, take_left]
    · rintro t e ⟨start, rfl, hmod, hroom, hbytes⟩
      refine ⟨(padded first.raw).length + start, ?_, ?_, ?_, ?_⟩
      · rw [add_assoc]
      · have hfirst := alignUp_mod first.raw.length
        rw [hlen]
        unfold align at *
        omega
      · rw [hregion, length_append]
        omega
      · rw [hregion, ← drop_drop, drop_left]
        exact hbytes

theorem le_of_mem_entriesFrom {off : ℕ} {tensors : List (Tensor elsize)} {e : TensorEntry}
    (h : e ∈ entriesFrom off tensors) : off ≤ e.globalOff := by
  induction tensors generalizing off with
  | nil => exact absurd h not_mem_nil
  | cons first tensors ih =>
    rcases mem_cons.mp h with rfl | h
    · exact le_rfl
    · exact (Nat.le_add_right _ _).trans (ih h)

theorem pairwise_entriesFrom (off : ℕ) (tensors : List (Tensor elsize)) :
    (entriesFrom off tensors).Pairwise fun e e' => e.globalOff + e.nbytes ≤ e'.globalOff := by
  induction tensors generalizing off with
  | nil => exact List.Pairwise.nil
  | cons first tensors ih =>
    refine pairwise_cons.mpr ⟨fun e he => ?_, ih _⟩
    have hle := le_of_mem_entriesFrom he
    have hup := le_alignUp first.raw.length
    rw [length_padded] at hle
    show off + first.raw.length ≤ e.globalOff
    omega

/-! ### The shards -/

/-- Shards one behind the other, from an offset to another. -/
def Contiguous : ℕ → List Shard → ℕ → Prop
  | start, [], stop => start = stop
  | start, sh :: shards, stop => sh.globalOff = start ∧ Contiguous (start + sh.nbytes) shards stop

theorem contiguous_layout (k s : ℕ) (parts : List Bytes) :
    Contiguous s (layout k s parts) (s + parts.flatten.length) := by
  induction parts generalizing k s with
  | nil => rfl
  | cons part parts ih =>
    have hrest := ih (k + 1) (s + part.length)
    rw [add_assoc, ← length_append] at hrest
    exact ⟨rfl, hrest⟩

theorem mem_layout {k s : ℕ} {parts : List Bytes} {sh : Shard} (h : sh ∈ layout k s parts) :
    s ≤ sh.globalOff ∧ ∃ part ∈ parts, sh.nbytes = part.length := by
  induction parts generalizing k s with
  | nil => exact absurd h not_mem_nil
  | cons part parts ih =>
    rcases mem_cons.mp h with rfl | h
    · exact ⟨le_rfl, part, mem_cons_self, rfl⟩
    · obtain ⟨hle, part', hpart, hlen⟩ := ih h
      exact ⟨(Nat.le_add_right _ _).trans hle, part', mem_cons_of_mem _ hpart, hlen⟩

theorem sort_layout (k s : ℕ) (parts : List Bytes) :
    (layout k s parts).insertionSort (fun a b => a.globalOff ≤ b.globalOff) = layout k s parts := by
  have hsorted : (layout k s parts).Pairwise fun a b => a.globalOff ≤ b.globalOff := by
    induction parts generalizing k s with
    | nil => exact List.Pairwise.nil
    | cons part parts ih =>
      refine pairwise_cons.mpr ⟨fun sh hsh => ?_, ih _ _⟩
      exact (Nat.le_add_right _ _).trans (mem_layout hsh).1
  exact hsorted.insertionSort_eq

/-- A range in one part is a range in one shard. -/
theorem InOne.shard {parts : List Bytes} {a b : ℕ} (h : InOne parts a b) :
    ∃ sh ∈ layout 0 0 parts, sh.globalOff ≤ a ∧ b ≤ sh.globalOff + sh.nbytes := by
  obtain ⟨front, part, back, rfl, ha, hb⟩ := h
  have hlayout : ∀ k s, ⟨shardFmt (k + front.length), s + front.flatten.length, part.length⟩ ∈
      layout k s (front ++ part :: back) := by
    clear ha hb
    induction front with
    | nil => exact fun k s => mem_cons_self
    | cons first front ih =>
      intro k s
      have hmem := ih (k + 1) (s + first.length)
      rw [add_assoc, add_assoc, ← length_append, add_comm 1] at hmem
      exact mem_cons_of_mem _ hmem
  refine ⟨_, hlayout 0 0, ?_, ?_⟩
  · show 0 + front.flatten.length ≤ a
    rwa [zero_add]
  · show b ≤ 0 + front.flatten.length + part.length
    rwa [zero_add]

/-! ### Expert banks -/

/-- A layer of a tensor of so many layers. -/
def layerOf (raw : Bytes) (numLayers layerId : ℕ) : Bytes :=
  (raw.drop (layerId * (raw.length / numLayers))).take (raw.length / numLayers)

/-- The layers that are read are those of the tensor. -/
theorem loadFlat_spec (mode : ReadMode) {r : FTWReader} {parts : List Bytes}
    (hshards : r.shards = layout 0 0 parts)
    (hdir : ∀ i part, parts[i]? = some part → r.dir (shardFmt i) = some part)
    (hparts : ∀ part ∈ parts, part.length % align = 0) {t : Tensor elsize} {start : ℕ}
    (hstart : start % align = 0) (hroom : start + alignUp t.raw.length ≤ parts.flatten.length)
    (hbytes : (parts.flatten.drop start).take t.raw.length = t.raw) {numLayers total : ℕ}
    {rowShape : List ℕ}
    (hmeta : ∀ n ∈ r.index.expertBankNumLayers, n = numLayers)
    (hshape : t.shape = total :: rowShape)
    (hlayers : numLayers ≠ 0) (htotal : total % numLayers = 0) :
    loadFlat elsize r mode numLayers (entryOf t start) =
      some ((range numLayers).map (layerOf t.raw numLayers)) := by
  have hraw : total / numLayers * (prod rowShape * elsize t.dtype) * numLayers = t.raw.length := by
    have hmul : total / numLayers * numLayers = total := by
      have hdiv := Nat.div_add_mod total numLayers
      rw [htotal, add_zero, mul_comm] at hdiv
      exact hdiv
    rw [t.length_raw, hshape, prod, mul_right_comm, hmul, mul_assoc]
  have hlayer :
    t.raw.length / numLayers = total / numLayers * (prod rowShape * elsize t.dtype) := by
    rw [← hraw, Nat.mul_div_cancel _ (Nat.pos_of_ne_zero hlayers)]
  have hwindows : flatWindows elsize numLayers (entryOf t start) =
      some ((range numLayers).map (layerWindow start (t.raw.length / numLayers))) := by
    unfold flatWindows entryOf
    rw [hshape]
    dsimp only
    rw [if_pos ⟨hlayers, htotal⟩, if_pos hraw, hlayer]
  have hany : r.index.expertBankNumLayers.any (· ≠ numLayers) = false := by
    cases hlookup : r.index.expertBankNumLayers with
    | none => rfl
    | some n => simpa using hmeta n hlookup
  unfold loadFlat
  rw [hany, hwindows, if_neg Bool.false_ne_true, Option.bind_eq_bind, Option.bind_some]
  rw [mapM_map]
  apply mapM_eq_map
  intro l hl
  -- the window of a layer, in the region
  have hnext : (l + 1) * (t.raw.length / numLayers) ≤ t.raw.length := by
    have hle :=
      Nat.mul_le_mul_right (t.raw.length / numLayers) (Nat.succ_le_of_lt (List.mem_range.mp hl))
    exact hle.trans (Nat.mul_div_le _ _)
  rw [Nat.succ_mul] at hnext
  have hup := le_alignUp t.raw.length
  generalize hlb : t.raw.length / numLayers = lb at *
  have hoff : (start + l * lb) / align * align ≤ start + l * lb := Nat.div_mul_le_self _ _
  have hend : start + l * lb + lb ≤ alignUp (start + l * lb + lb) := le_alignUp _
  have hin : alignUp (start + l * lb + lb) ≤ parts.flatten.length := by
    refine (alignUp_le ?_ ?_).trans hroom
    · have hmod := alignUp_mod t.raw.length
      unfold align at *
      omega
    · omega
  have hlen :
      alignUp (alignUp (start + l * lb + lb) - (start + l * lb) / align * align) ≤
      (replicate (alignUp
      (alignUp (start + l * lb + lb) - (start + l * lb) / align * align)) (0 : UInt8)).length := by
    rw [length_replicate]
  have hwindow :
      (start + l * lb) / align * align +
      (alignUp (start + l * lb + lb) - (start + l * lb) / align * align) ≤
      parts.flatten.length := by omega
  obtain ⟨bank, hbank, -, hread⟩ :=
    readInto_spec mode hshards hdir hparts (Nat.mul_mod_left _ align) hwindow hlen
  show (do
    let bank ← r.readInto mode (replicate (alignUp (alignUp (start + l * lb + lb) -
      (start + l * lb) / align * align)) 0) ((start + l * lb) / align * align)
      (alignUp (start + l * lb + lb) - (start + l * lb) / align * align)
    return (bank.drop (start + l * lb - (start + l * lb) / align * align)).take lb) = _
  rw [hbank, Option.bind_eq_bind, Option.bind_some]
  show some ((bank.drop (start + l * lb - (start + l * lb) / align * align)).take lb) =
    some (layerOf t.raw numLayers l)
  unfold layerOf
  rw [hlb]
  congr 1
  calc (bank.drop (start + l * lb - (start + l * lb) / align * align)).take lb
      = ((bank.take (alignUp (start + l * lb + lb) - (start + l * lb) / align * align)).drop
          (start + l * lb - (start + l * lb) / align * align)).take lb := by
        have hcut := slice_slice bank (a := 0)
          (b := start + l * lb - (start + l * lb) / align * align) (m := lb)
          (n := alignUp (start + l * lb + lb) - (start + l * lb) / align * align) (by omega)
        rw [drop_zero, zero_add] at hcut
        exact hcut.symm
    _ = (parts.flatten.drop (start + l * lb)).take lb := by
        rw [hread, slice_slice _ (by omega)]
        congr 2
        omega
    _ = (t.raw.drop (l * lb)).take lb := by
        have hcut :=
          slice_slice parts.flatten (a := start) (b := l * lb) (m := lb) (n := t.raw.length) hnext
        rw [hbytes] at hcut
        exact hcut.symm

/-! ### The round trip -/

/-- What holds of a tensor and its entry in a checkpoint with so large shards. -/
structure Kept (L : ℕ) (r : FTWReader) (t : Tensor elsize) (e : TensorEntry) : Prop where
  entry : e = entryOf t e.globalOff
  aligned : e.globalOff % align = 0
  /-- The bytes are read back, into any buffer that is large enough. -/
  reads : ∀ (mode : ReadMode) (dest : Bytes), alignUp e.nbytes ≤ dest.length →
    ∃ dest', r.readInto mode dest e.globalOff e.nbytes = some dest' ∧ dest'.take e.nbytes = t.raw
  /-- A tensor that is not larger than a shard is in one shard. -/
  oneShard : e.nbytes ≤ L → ∃ sh ∈ r.index.shards, sh.globalOff ≤ e.globalOff ∧
    e.globalOff + e.nbytes ≤ sh.globalOff + sh.nbytes
  /-- The layers of a flat expert bank are read in their order. -/
  flat : ∀ (mode : ReadMode) (numLayers total : ℕ) (rowShape : List ℕ), t.shape = total ::
    rowShape → numLayers ≠ 0 →
    total % numLayers = 0 → (∀ n ∈ r.index.expertBankNumLayers, n = numLayers) →
    loadFlat elsize r mode numLayers e = some ((range numLayers).map (layerOf t.raw numLayers))

/-- **A checkpoint round-trips**, for any tensors that have bytes and any shards that can hold some.
-/
theorem ftw_roundTrip {L : ℕ} (hL : 0 < L) (hLalign : L % align = 0) (dir : Dir)
    (tensors : List (Tensor elsize)) (hne : ∀ t ∈ tensors, t.raw ≠ []) (layers : Option ℕ) :
    ∃ index dir' r, writeFtw dir L tensors layers = some (index, dir') ∧ FTWReader.init index dir' =
      some r ∧
      List.Forall₂ (Kept L r) tensors r.index.tensors ∧
      (r.index.tensors.Pairwise fun e e' => e.globalOff + e.nbytes ≤ e'.globalOff) ∧
      (∀ sh ∈ r.index.shards, sh.nbytes ≤ L) ∧ Contiguous 0 r.index.shards r.index.totalBytes := by
  obtain ⟨parts, dir', hwrite, hdir, hregion, hlength, hone⟩ :=
    writeFtw_spec hL hLalign dir hne layers
  have hparts : ∀ part ∈ parts, part.length % align = 0 := fun part hp => (hlength part hp).2
  refine ⟨_, dir',
    ⟨⟨formatTag, L, (regionOf tensors).length, entriesFrom 0 tensors, layout 0 0 parts, layers⟩,
    layout 0 0 parts, dir'⟩, hwrite, ?_, ?_, pairwise_entriesFrom 0 tensors, fun sh hsh => ?_, ?_⟩
  · unfold FTWReader.init
    rw [if_pos rfl, sort_layout]
  · have hall := entriesFrom_spec 0 tensors
    rw [forall₂_iff_get] at hall ⊢
    refine ⟨hall.1, fun i hi hi' => ?_⟩
    obtain ⟨start, he, hmod, hroom, hbytes⟩ := hall.2 i hi hi'
    have hmem : (entriesFrom 0 tensors).get ⟨i, hi'⟩ ∈ entriesFrom 0 tensors := get_mem _ _
    generalize (entriesFrom 0 tensors).get ⟨i, hi'⟩ = e at *
    rw [zero_add] at he
    subst he
    rw [← hregion] at hroom hbytes
    have hfit : start + (tensors.get ⟨i, hi⟩).raw.length ≤ parts.flatten.length :=
      (Nat.add_le_add_left (le_alignUp _) start).trans hroom
    refine ⟨rfl, hmod, fun mode dest hdest => ?_, fun hle => (hone _ hmem hle).shard,
      fun mode numLayers total rowShape hshape hlayers htotal hmeta => ?_⟩
    · obtain ⟨dest', hread, -, htake⟩ :=
        readInto_spec mode (r := ⟨_, layout 0 0 parts, dir'⟩) rfl hdir hparts hmod hfit hdest
      exact ⟨dest', hread, htake.trans hbytes⟩
    · exact loadFlat_spec mode rfl hdir hparts hmod hroom hbytes hmeta hshape hlayers htotal
  · obtain ⟨-, part, hpart, hlen⟩ := mem_layout hsh
    rw [hlen]
    exact (hlength part hpart).1
  · have hcontiguous := contiguous_layout 0 0 parts
    rw [zero_add, hregion] at hcontiguous
    exact hcontiguous

/-- A tensor of a byte, and one that is larger than a shard. -/
theorem ftw_roundTrip_blocks :
    ∃ index dir' r, writeFtw (fun _ => none) 4096 ([⟨[], [], [], [1], [7], rfl⟩,
        ⟨[], [], [], [5000], replicate 5000 9, length_replicate⟩] : List (Tensor fun _ => 1)) none =
        some (index, dir') ∧ FTWReader.init index dir' = some r ∧
      List.Forall₂ (Kept 4096 r) ([⟨[], [], [], [1], [7], rfl⟩,
        ⟨[], [], [], [5000], replicate 5000 9, length_replicate⟩] : List (Tensor fun _ => 1))
        r.index.tensors := by
  obtain ⟨index, dir', r, hwrite, hinit, hkept, -⟩ := ftw_roundTrip (L := 4096) (by decide)
    (by decide) (fun _ => none)
    ([⟨[], [], [], [1], [7], rfl⟩, ⟨[], [], [], [5000], replicate 5000 9, length_replicate⟩] : List
    (Tensor fun _ => 1)) (by
        intro t ht
        rcases mem_cons.mp ht with rfl | ht
        · exact cons_ne_nil _ _
        · rw [mem_singleton.mp ht]
          exact cons_ne_nil _ _) none
  exact ⟨index, dir', r, hwrite, hinit, hkept⟩

end Ftw

end FreeToken
