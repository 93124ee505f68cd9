import FreeToken.Moe.Equiv.OffloadKernels

/-!
# Correctness of the expert cache

* `MoeRun`: the caches that the steps of the decode and the prefill reach; `MoeRun.wf`: they keep
  the invariant.
* `prefetchSplit_perm`: a prefetch writes every byte of its buffer once, with the layer's bytes.
-/

namespace FreeToken

open List

namespace OffloadMoeCache

variable {c c' : OffloadMoeCache} {bufferId layerId e i s : ℕ} {byRecency : Bool}

/-! ### Invalidating a buffer -/

theorem mem_bufferSlots : s ∈ range' (bufferId * c.numExperts)
    (min (bufferId * c.numExperts + c.numExperts) c.cacheSize - bufferId * c.numExperts) ↔
      (bufferId * c.numExperts ≤ s ∧ s < bufferId * c.numExperts + c.numExperts) ∧
        s < c.cacheSize := by
  rw [mem_range'_1]
  omega

theorem mem_oldIds {slots : List ℕ} :
    i ∈ ((slots.map c.idOfSlot).filter fun old => 0 ≤ old).map Int.toNat ↔
      ∃ s ∈ slots, c.idOfSlot s = i := by
  simp only [mem_map, mem_filter, decide_eq_true_eq]
  constructor
  · rintro ⟨old, ⟨⟨s, hs, rfl⟩, h0⟩, rfl⟩
    exact ⟨s, hs, (Int.toNat_of_nonneg h0).symm⟩
  · rintro ⟨s, hs, hsi⟩
    exact ⟨i, ⟨⟨s, hs, hsi⟩, Int.natCast_nonneg i⟩, Int.toNat_natCast i⟩

theorem invalidate_slotForId (bufferId : ℕ)
    (h : SlotMap c.slotForId c.idOfSlot c.totalIds c.cacheSize) (hi : i < c.totalIds) :
    ((∃ s < c.cacheSize, c.slotForId i = s ∧
        (bufferId * c.numExperts ≤ s ∧ s < bufferId * c.numExperts + c.numExperts)) →
      (c.invalidatePrefillBuffer bufferId).slotForId i = -1) ∧
    ((∀ s < c.cacheSize, c.slotForId i = s →
        ¬(bufferId * c.numExperts ≤ s ∧ s < bufferId * c.numExperts + c.numExperts)) →
      (c.invalidatePrefillBuffer bufferId).slotForId i = c.slotForId i) := by
  constructor
  · rintro ⟨s, hs, his, hd⟩
    refine indexFill_of_mem (mem_oldIds.mpr ⟨s, mem_bufferSlots.mpr ⟨hd, hs⟩, ?_⟩)
    exact (h.link i hi s hs).mp his
  · intro hno
    refine indexFill_of_notMem fun hmem => ?_
    obtain ⟨s, hs, hsi⟩ := mem_oldIds.mp hmem
    obtain ⟨hd, hsC⟩ := mem_bufferSlots.mp hs
    exact hno s hsC ((h.link i hi s hsC).mpr hsi) hd

theorem Wf.invalidatePrefillBuffer (h : c.Wf) (bufferId : ℕ) :
    (c.invalidatePrefillBuffer bufferId).Wf := by
  refine ⟨?_, h.experts_le, fun s hs => ?_, h.step_nonneg, h.recency_ge, h.recency_le⟩
  · refine h.slots.clear
      (fun s => bufferId * c.numExperts ≤ s ∧ s < bufferId * c.numExperts + c.numExperts)
      (fun s hs hd => ?_) (fun s hs hd => ?_) (fun i hi s hs his hd => ?_) fun i hi hno => ?_
    · exact indexFill_of_mem (mem_bufferSlots.mpr ⟨hd, hs⟩)
    · exact indexFill_of_notMem fun hmem => hd (mem_bufferSlots.mp hmem).1
    · exact (invalidate_slotForId bufferId h.slots hi).1 ⟨s, hs, his, hd⟩
    · exact (invalidate_slotForId bufferId h.slots hi).2 hno
  · show indexFill c.usage _ 0 s ≤ c.step
    have := h.usage_le s hs
    have := h.step_nonneg
    rw [indexFill]
    split_ifs <;> omega

/-! ### Runs -/

/-- One step of the cache: an ensure step of some layer, in one of its three implementations, a
materialized layer, an invalidated buffer or a reset.  `lruEnsure` is the external primitive. -/
inductive MoeStep (lruEnsure : OffloadMoeCache → ℕ → List ℕ → OffloadMoeCache) (byRecency : Bool)
    (c : OffloadMoeCache) : OffloadMoeCache → Prop
  | lru (layerId : ℕ) (ids : List ℕ) (hl : layerId < c.numLayers)
      (hids : ∀ e ∈ ids, e < c.numExperts) : MoeStep lruEnsure byRecency c (lruEnsure c layerId ids)
  | cpu (layerId : ℕ) (ids : List ℕ) (maxFetch fracQ16 : ℤ) (hl : layerId < c.numLayers)
      (hids : ∀ e ∈ ids, e < c.numExperts) : MoeStep lruEnsure byRecency c
        (ensureExpertsHybridCpu byRecency c layerId ids maxFetch fracQ16).1
  | gpu (layerId : ℕ) (ids : List ℕ) (maxFetch fracQ16 : ℤ) (hl : layerId < c.numLayers)
      (hids : ∀ e ∈ ids, e < c.numExperts) (hr : c.InRange) : MoeStep lruEnsure byRecency c
        (ensureExpertsHybridGpu byRecency c layerId ids maxFetch fracQ16).1
  | materialize (layerId : ℕ) (hl : layerId < c.numLayers) :
      MoeStep lruEnsure byRecency c (c.materializeLayer layerId)
  | invalidate (bufferId : ℕ) : MoeStep lruEnsure byRecency c (c.invalidatePrefillBuffer bufferId)
  | reset : MoeStep lruEnsure byRecency c c.reset

/-- The caches that are reached from a cold one. -/
inductive MoeRun (lruEnsure : OffloadMoeCache → ℕ → List ℕ → OffloadMoeCache) (byRecency : Bool) :
    OffloadMoeCache → Prop
  | create (numLayers numExperts cacheSize : ℕ) (h : numExperts ≤ cacheSize) :
      MoeRun lruEnsure byRecency (create numLayers numExperts cacheSize)
  | step (c c' : OffloadMoeCache) (h : MoeRun lruEnsure byRecency c)
      (hs : MoeStep lruEnsure byRecency c c') : MoeRun lruEnsure byRecency c'

variable {lruEnsure : OffloadMoeCache → ℕ → List ℕ → OffloadMoeCache}

/-- One step keeps the invariant, if the external primitive does. -/
theorem MoeStep.wf (hlru : ∀ c layerId ids, c.Wf → layerId < c.numLayers →
    (∀ e ∈ ids, e < c.numExperts) → (lruEnsure c layerId ids).Wf)
    (hs : MoeStep lruEnsure byRecency c c') (h : c.Wf) : c'.Wf := by
  cases hs with
  | lru layerId ids hl hids => exact hlru c layerId ids h hl hids
  | cpu layerId ids maxFetch fracQ16 hl hids => exact h.ensured hl hids
  | gpu layerId ids maxFetch fracQ16 hl hids hr =>
    rw [ensureExpertsHybridGpu_eq h hr hl hids]
    exact h.ensured hl hids
  | materialize layerId hl => exact h.materializeLayer hl
  | invalidate bufferId => exact h.invalidatePrefillBuffer bufferId
  | reset => exact h.reset

theorem MoeRun.wf (hlru : ∀ c layerId ids, c.Wf → layerId < c.numLayers →
    (∀ e ∈ ids, e < c.numExperts) → (lruEnsure c layerId ids).Wf)
    (h : MoeRun lruEnsure byRecency c) : c.Wf := by
  induction h with
  | create numLayers numExperts cacheSize h => exact Wf.create h
  | step c c' _ hs ih => exact hs.wf hlru ih

/-- **The slot map stays a bijection, and every ensure step rewrites the experts to their slots.**
-/
theorem offloadMoeCache_run (hlru : ∀ c layerId ids, c.Wf → layerId < c.numLayers →
    (∀ e ∈ ids, e < c.numExperts) → (lruEnsure c layerId ids).Wf)
    (h : MoeRun lruEnsure byRecency c) :
    (∀ i < c.totalIds, ∀ s : ℕ, c.slotForId i = s ↔ s < c.cacheSize ∧ c.idOfSlot s = i) ∧
      ∀ layerId ids maxFetch fracQ16, layerId < c.numLayers → (∀ e ∈ ids, e < c.numExperts) →
        (Ensured c (ensureExpertsHybridCpu byRecency c layerId ids maxFetch fracQ16).1 byRecency
          layerId ids maxFetch fracQ16
          (ensureExpertsHybridCpu byRecency c layerId ids maxFetch fracQ16).2) ∧
        (c.InRange → Ensured c (ensureExpertsHybridGpu byRecency c layerId ids maxFetch fracQ16).1
          byRecency layerId ids maxFetch fracQ16
          (ensureExpertsHybridGpu byRecency c layerId ids maxFetch fracQ16).2) := by
  have hwf := h.wf hlru
  refine ⟨fun i hi s => ⟨fun his => ?_, fun hs => (hwf.slots.link i hi s hs.1).mpr hs.2⟩, ?_⟩
  · have hs : s < c.cacheSize := by
      have := hwf.slots.fwd_range i hi
      omega
    exact ⟨hs, (hwf.slots.link i hi s hs).mp his⟩
  · intro layerId ids maxFetch fracQ16 hl hids
    refine ⟨hwf.ensured_cpu hl hids, fun hr => ?_⟩
    rw [ensureExpertsHybridGpu_eq hwf hr hl hids]
    exact hwf.ensured_cpu hl hids

/-- An ensure step without a cap on the fetches. -/
def uncappedEnsure (c : OffloadMoeCache) (layerId : ℕ) (ids : List ℕ) : OffloadMoeCache :=
  (ensureExpertsHybridCpu false c layerId ids ids.length 0).1

/-- A run through all steps, with the uncapped step for the external primitive. -/
theorem offloadMoeCache_run_all : ∃ c, MoeRun uncappedEnsure true c ∧
    c.slotForId 3 = 1 ∧ c.idOfSlot 1 = 3 := by
  have h₁ : MoeRun uncappedEnsure true _ := .step _ _ (.create 2 2 4 (by decide))
    (.gpu 0 [1, 0, 1] 1 0 (by decide) (by decide) ⟨by decide, by decide⟩)
  have h₂ : MoeRun uncappedEnsure true _ :=
    .step _ _ h₁ (.lru 1 [0] (by decide +kernel) (by decide +kernel))
  have h₃ : MoeRun uncappedEnsure true _ := .step _ _ h₂ (.invalidate 0)
  have h₄ : MoeRun uncappedEnsure true _ := .step _ _ h₃ .reset
  have h₅ : MoeRun uncappedEnsure true _ :=
    .step _ _ h₄ (.cpu 0 [1] 1 0 (by decide +kernel) (by decide +kernel))
  have h₆ : MoeRun uncappedEnsure true _ := .step _ _ h₅ (.materialize 1 (by decide +kernel))
  have hlru : ∀ c layerId ids, c.Wf → layerId < c.numLayers → (∀ e ∈ ids, e < c.numExperts) →
      (uncappedEnsure c layerId ids).Wf := fun _ _ _ h hl hids => h.ensured hl hids
  have hrun := (offloadMoeCache_run hlru h₆).1 3 (by decide +kernel) 1
  exact ⟨_, h₆, hrun.mpr (by decide +kernel), (hrun.mp (by decide +kernel)).2⟩

end OffloadMoeCache

/-! ### Runs of misses -/

theorem npNonzero_map_range' (p : ℕ → Bool) (s n : ℕ) :
    (npNonzero ((range' s n).map p)).map (s + ·) = (range' s n).filter p := by
  induction n generalizing s with
  | zero => rfl
  | succ n ih =>
    have hshift : ((npNonzero ((range' (s + 1) n).map p)).map (· + 1)).map (s + ·) =
        (range' (s + 1) n).filter p := by
      rw [← ih, map_map]
      exact map_congr_left fun i _ => by
        show s + (i + 1) = s + 1 + i
        omega
    rw [range'_succ, map_cons, npNonzero, filter_cons]
    split_ifs
    · rw [map_cons, hshift, add_zero]
    · exact hshift

theorem npNonzero_map_range (p : ℕ → Bool) (n : ℕ) :
    npNonzero ((range n).map p) = (range n).filter p := by
  rw [range_eq_range', ← npNonzero_map_range']
  simp

theorem npDiff_map_succ (l : List ℕ) : npDiff (l.map (· + 1)) = npDiff l := by
  induction l with
  | nil => rfl
  | cons a l ih =>
    cases l with
    | nil => rfl
    | cons b l =>
      rw [map_cons] at ih
      rw [map_cons, map_cons, npDiff, npDiff, ih]
      congr 1
      omega

/-- The ends of the runs but the last, as positions. -/
def cuts (miss : List ℕ) : List ℕ := (npNonzero ((npDiff miss).map fun d => d != 1)).map (· + 1)

theorem cuts_cons_cons (a b : ℕ) (l : List ℕ) : cuts (a :: b :: l) =
    if b = a + 1 then (cuts (b :: l)).map (· + 1) else 1 :: (cuts (b :: l)).map (· + 1) := by
  rw [cuts, npDiff, map_cons, npNonzero]
  by_cases hb : b = a + 1
  · have hd : ((b : ℤ) - a != 1) = false := by
      rw [bne_eq_false_iff_eq]
      omega
    rw [hd, if_neg Bool.false_ne_true, if_pos hb]
    rfl
  · have hd : ((b : ℤ) - a != 1) = true := by
      rw [bne_iff_ne]
      omega
    rw [hd, if_pos rfl, if_neg hb, map_cons]
    rfl

theorem missRuns_def (miss : List ℕ) :
    missRuns miss = ((0 :: cuts miss).map fun i => miss.getD i 0).zip
    ((npDiff (0 :: cuts miss ++ [miss.length])).map Int.toNat) := rfl

/-- The vector computation finds the maximal runs. -/
theorem missRuns_eq (a : ℕ) (l : List ℕ) : missRuns (a :: l) = runs (a :: l) := by
  induction l generalizing a with
  | nil => rfl
  | cons b l ih =>
    have ih := ih b
    have hget : ((cuts (b :: l)).map (· + 1)).map (fun i => (a :: b :: l).getD i 0) =
        (cuts (b :: l)).map fun i => (b :: l).getD i 0 := by
      rw [map_map]
      rfl
    -- the first run of `b :: l` starts with `b`
    obtain ⟨x, xs, hx⟩ : ∃ x xs, cuts (b :: l) ++ [(b :: l).length] = x :: xs := by
      cases h : cuts (b :: l) with
      | nil => exact ⟨_, _, rfl⟩
      | cons y ys => exact ⟨_, _, rfl⟩
    have hruns : runs (b :: l) = (b, x) ::
        ((cuts (b :: l)).map fun i => (b :: l).getD i 0).zip
          ((npDiff (x :: xs)).map Int.toNat) := by
      rw [← ih, missRuns_def, cons_append, hx, npDiff, map_cons, map_cons, zip_cons_cons]
      simp
    have hx₁ :
      (cuts (b :: l)).map (· + 1) ++ [(a :: b :: l).length] = (x + 1) :: xs.map (· + 1) := by
      have := congrArg (List.map (· + 1)) hx
      rwa [map_append] at this
    have hdiff : npDiff ((x + 1) :: xs.map (· + 1)) = npDiff (x :: xs) := npDiff_map_succ (x :: xs)
    rw [runs, hruns, missRuns_def, cuts_cons_cons]
    by_cases hb : b = a + 1
    · rw [if_pos hb, cons_append, hx₁, npDiff, hdiff, map_cons, map_cons, zip_cons_cons, hget]
      simp [hb]
    · rw [if_neg hb, cons_append, cons_append, hx₁, npDiff, npDiff, hdiff, map_cons,
        map_cons, map_cons, map_cons, zip_cons_cons, zip_cons_cons, hget]
      simp [hb]

/-! ### The gather -/

section gather

variable {block numExperts base threshold bufferId i : ℕ} {slots : ℕ → ℤ} {dst src : ℕ → ℕ}

theorem prefillHitCompactKernel_rows (base threshold : ℕ) (slots : ℕ → ℤ) (dst src : ℕ → ℕ)
    (hE : numExperts ≤ block) :
    (range (prefillHitCompactKernel block numExperts base threshold slots dst src).2.2.toNat).map
      (fun i => ((prefillHitCompactKernel block numExperts base threshold slots dst src).1 i,
        (prefillHitCompactKernel block numExperts base threshold slots dst src).2.1 i)) =
      ((range numExperts).filter fun e => (threshold : ℤ) ≤ slots e).map
        fun e => (base + e, (slots e).toNat) := by
  obtain ⟨slots', hslots'⟩ : ∃ slots' : ℕ → ℤ, slots' =
    fun off => if off < numExperts then slots off else -1 := ⟨_, rfl⟩
  obtain ⟨p, hp⟩ : ∃ p : ℕ → Bool, p = fun off =>
    decide (off < numExperts) && decide ((threshold : ℤ) ≤ slots' off) := ⟨_, rfl⟩
  have hkernel : prefillHitCompactKernel block numExperts base threshold slots dst src =
      (laneStore block p (fun off => (laneCumsum (maskInt p) off - 1).toNat) (base + ·) dst,
        laneStore block p (fun off => (laneCumsum (maskInt p) off - 1).toNat)
          (fun off => (slots' off).toNat) src,
        laneSum block (maskInt p)) := by
    rw [hp, hslots']
    rfl
  have hlt : ∀ e, p e = true → e < numExperts := fun e he => by
    rw [hp, Bool.and_eq_true, decide_eq_true_eq] at he
    exact he.1
  -- the lanes past the experts are masked out
  have hfilter : (range numExperts).filter (fun e => (threshold : ℤ) ≤ slots e) =
      (range block).filter p := by
    obtain ⟨d, rfl⟩ := Nat.exists_eq_add_of_le hE
    have hrest : ((range d).map (numExperts + ·)).filter p = [] := by
      rw [filter_eq_nil_iff]
      intro e he hpe
      obtain ⟨j, -, rfl⟩ := mem_map.mp he
      have := hlt _ hpe
      omega
    rw [range_add, filter_append, hrest, append_nil]
    refine filter_congr fun e he => ?_
    have he := mem_range.mp he
    simp [hp, hslots', he]
  rw [hkernel, hfilter]
  apply ext_getElem
  · rw [length_map, length_map, length_range, laneSum_maskInt, Int.toNat_natCast]
  · intro i h₁ h₂
    rw [length_map] at h₂
    obtain ⟨e, he⟩ : ∃ e, ((range block).filter p)[i] = e := ⟨_, rfl⟩
    have hmem := getElem_mem h₂
    rw [he, mem_filter, mem_range] at hmem
    obtain ⟨heb, hpe⟩ := hmem
    -- the running sum gives every hit its own place
    have hrank : ∀ j < block, p j = true → (laneCumsum (maskInt p) j - 1).toNat = i → j = e := by
      intro j hj hpj hji
      rw [rank_eq hpj, Int.toNat_natCast] at hji
      have := getElem?_filter_range hj hpj
      rw [hji, getElem?_eq_getElem h₂, he] at this
      exact (Option.some.inj this).symm
    have hself : (laneCumsum (maskInt p) e - 1).toNat = i := by
      rw [rank_eq hpe, Int.toNat_natCast]
      have := getElem?_filter_range heb hpe
      rw [← he] at this
      have hi := getElem?_eq_getElem h₂
      exact (getElem?_inj h₂ (nodup_range.filter p)).mp (hi.trans (he ▸ this.symm)) |>.symm
    have hslot : slots' e = slots e := by rw [hslots']; exact if_pos (hlt e hpe)
    rw [getElem_map, getElem_map, getElem_range, he]
    dsimp only
    rw [laneStore_of_eq heb hpe hself fun j hj hpj hji => by rw [hrank j hj hpj hji],
      laneStore_of_eq heb hpe hself fun j hj hpj hji => by rw [hrank j hj hpj hji], hslot]

theorem prefillHitCompactKernel_src (base : ℕ) (dst src : ℕ → ℕ) (hE : numExperts ≤ block) (hi : i <
    (prefillHitCompactKernel block numExperts base threshold slots dst src).2.2.toNat) :
    threshold ≤ (prefillHitCompactKernel block numExperts base threshold slots dst src).2.1 i := by
  have hrow := mem_map_of_mem (f := fun i =>
    ((prefillHitCompactKernel block numExperts base threshold slots dst src).1 i,
      (prefillHitCompactKernel block numExperts base threshold slots dst src).2.1 i))
    (mem_range.mpr hi)
  rw [prefillHitCompactKernel_rows base threshold slots dst src hE] at hrow
  obtain ⟨e, he, heq⟩ := mem_map.mp hrow
  have hge := of_decide_eq_true (mem_filter.mp he).2
  have hsrc : (slots e).toNat = _ := (Prod.ext_iff.mp heq).2
  omega

end gather

/-! ### The prefetch -/

open OffloadMoeCache

theorem slotForId_invalidate {c : OffloadMoeCache} {bufs : List ℕ} {i : ℕ} (h : c.Wf)
    (hbufs : ∀ b ∈ bufs, b < 2) (hi : i < c.totalIds) :
    (((2 * c.numExperts : ℕ) : ℤ) ≤ c.slotForId i ∧
        (bufs.foldl invalidatePrefillBuffer c).slotForId i = c.slotForId i) ∨
      c.slotForId i < (2 * c.numExperts : ℕ) ∧
        (bufs.foldl invalidatePrefillBuffer c).slotForId i < (2 * c.numExperts : ℕ) := by
  induction bufs generalizing c with
  | nil =>
    show _ ≤ _ ∧ c.slotForId i = c.slotForId i ∨ c.slotForId i < _ ∧ c.slotForId i < _
    omega
  | cons b bufs ih =>
    have ih := ih (h.invalidatePrefillBuffer b) (fun b hb => hbufs b (mem_cons_of_mem _ hb)) hi
    rw [foldl_cons]
    have hE : (c.invalidatePrefillBuffer b).numExperts = c.numExperts := rfl
    rw [hE] at ih
    obtain ⟨h₁, h₂⟩ := invalidate_slotForId b h.slots hi
    by_cases hin : ∃ s < c.cacheSize, c.slotForId i = s ∧
        (b * c.numExperts ≤ s ∧ s < b * c.numExperts + c.numExperts)
    · have hneg := h₁ hin
      obtain ⟨s, -, his, -, hlt⟩ := hin
      have hb := Nat.mul_le_mul_right c.numExperts (Nat.le_of_lt_succ (hbufs b mem_cons_self))
      rw [hneg] at ih
      refine Or.inr ⟨?_, ?_⟩ <;> omega
    · rw [h₂ fun s hs his hd => hin ⟨s, hs, his, hd⟩] at ih
      exact ih

section prefetch

variable {β : Type*} {numExperts bufferId bank feat e : ℕ} {feats : List ℕ} {slots snap : ℕ → ℤ}
  {dst src : ℕ → ℕ} {host : ℕ → ℕ → β} {mem : ℕ × ℕ → β}

/-- The bytes of the layer's expert `e` in its row of the buffer. -/
def bufferRow (numExperts bufferId : ℕ) (host : ℕ → ℕ → β) (bank feat e : ℕ) :
    List ((ℕ × ℕ) × β) :=
  (range feat).map fun k =>
    ((bank, (bufferId * numExperts + e) * feat + k), host bank (e * feat + k))

def bufferRows (numExperts bufferId : ℕ) (host : ℕ → ℕ → β) (feats : List ℕ) :
    List ((ℕ × ℕ) × β) :=
  feats.zipIdx.flatMap fun (feat, bank) =>
    (range numExperts).flatMap (bufferRow numExperts bufferId host bank feat)

def written (mem : ℕ × ℕ → β) (l : List ((ℕ × ℕ) × (ℕ × ℕ ⊕ β))) : List ((ℕ × ℕ) × β) :=
  l.map fun w => (w.1, copyValue mem w.2)

/-- The rows `s, …, s + n - 1` of a bank, as one interval of bytes. -/
theorem flatMap_bufferRow (s n : ℕ) :
    (range' s n).flatMap (bufferRow numExperts bufferId host bank feat) =
      (range (n * feat)).map fun k =>
        ((bank, (bufferId * numExperts + s) * feat + k), host bank (s * feat + k)) := by
  have hrow : ∀ e, bufferRow numExperts bufferId host bank feat e =
      (range' (e * feat) feat).map fun j =>
        ((bank, bufferId * numExperts * feat + j), host bank j) := by
    intro e
    rw [range'_eq_map_range, map_map]
    refine map_congr_left fun k _ => ?_
    show _ = ((bank, bufferId * numExperts * feat + (e * feat + k)), host bank (e * feat + k))
    rw [add_mul, add_assoc]
  simp only [funext hrow]
  rw [← map_flatMap, ← range'_mul, range'_eq_map_range, map_map]
  refine map_congr_left fun k _ => ?_
  show ((bank, bufferId * numExperts * feat + (s * feat + k)), host bank (s * feat + k)) = _
  rw [add_mul, add_assoc]

theorem written_h2d {start length : ℕ} : written mem (CopyEntry.h2d host
    ⟨bank, (bufferId * numExperts + start) * feat, start * feat, length * feat⟩) =
      (range' start length).flatMap (bufferRow numExperts bufferId host bank feat) := by
  rw [flatMap_bufferRow, written, CopyEntry.h2d, map_map]
  rfl

theorem written_d2d {slot : ℕ} (hslot : ∀ k < feat, mem (bank, slot * feat + k) =
    host bank (e * feat + k)) : written mem (CopyEntry.d2d
      ⟨bank, (bufferId * numExperts + e) * feat, slot * feat, feat⟩) =
        bufferRow numExperts bufferId host bank feat e := by
  rw [written, CopyEntry.d2d, map_map]
  refine map_congr_left fun k hk => ?_
  show ((bank, _), mem (bank, slot * feat + k)) = _
  rw [hslot k (mem_range.mp hk)]

theorem written_flatMap {γ : Type*} (l : List γ) (f : γ → List ((ℕ × ℕ) × (ℕ × ℕ ⊕ β))) :
    written mem (l.flatMap f) = l.flatMap fun x => written mem (f x) :=
  map_flatMap

theorem written_gather
    (hlive : ∀ e < numExperts, hitMask numExperts snap e = true ∧ slots e = snap e ∨
      hitMask numExperts snap e = false ∧ hitMask numExperts slots e = false)
    (hres : ∀ e < numExperts, ∀ s : ℕ, snap e = s → 2 * numExperts ≤ s → ∀ k < feat,
      mem (bank, s * feat + k) = host bank (e * feat + k))
    {r : (ℕ → ℕ) × (ℕ → ℕ) × ℤ}
    (hr : r = prefillHitCompactKernel (nextPowerOf2 numExperts) numExperts
      (bufferId * numExperts) (2 * numExperts) slots dst src) :
    written mem (((range r.2.2.toNat).map fun i =>
      (⟨bank, r.1 i * feat, r.2.1 i * feat, feat⟩ : CopyEntry)).flatMap CopyEntry.d2d) =
        ((range numExperts).filter (hitMask numExperts snap)).flatMap
          (bufferRow numExperts bufferId host bank feat) := by
  have hrows := prefillHitCompactKernel_rows (bufferId * numExperts) (2 * numExperts) slots dst src
    (le_nextPowerOf2 numExperts)
  rw [← hr] at hrows
  have hentries : ((range r.2.2.toNat).map fun i =>
      (⟨bank, r.1 i * feat, r.2.1 i * feat, feat⟩ : CopyEntry)) =
        ((range numExperts).filter (hitMask numExperts slots)).map fun e =>
          ⟨bank, (bufferId * numExperts + e) * feat, (slots e).toNat * feat, feat⟩ := by
    have := congrArg
      (List.map fun ds : ℕ × ℕ => (⟨bank, ds.1 * feat, ds.2 * feat, feat⟩ : CopyEntry)) hrows
    rwa [map_map, map_map] at this
  have hhits : (range numExperts).filter (hitMask numExperts slots) =
      (range numExperts).filter (hitMask numExperts snap) := by
    refine filter_congr fun e he => ?_
    rcases hlive e (mem_range.mp he) with ⟨hhit, heq⟩ | ⟨hsnap, hslots⟩
    · rw [hitMask, heq]
      rfl
    · rw [hsnap, hslots]
  rw [hentries, hhits, flatMap_map, written_flatMap]
  refine flatMap_congr fun e he => ?_
  obtain ⟨he, hhit⟩ := mem_filter.mp he
  have he := mem_range.mp he
  obtain ⟨hhit, heq⟩ := (hlive e he).resolve_right fun h => Bool.false_ne_true (h.1.symm.trans hhit)
  have hge := of_decide_eq_true hhit
  apply written_d2d
  rw [heq]
  exact hres e he _ (by omega) (by omega)

theorem written_batch (miss : List ℕ) : written mem ((if miss ≠ [] then
    (missRuns miss).map fun (start, length) =>
      (⟨bank, (bufferId * numExperts + start) * feat, start * feat, length * feat⟩ : CopyEntry)
    else []).flatMap (CopyEntry.h2d host)) =
      miss.flatMap (bufferRow numExperts bufferId host bank feat) := by
  cases miss with
  | nil => rfl
  | cons a l =>
    rw [if_pos (cons_ne_nil a l), missRuns_eq, flatMap_map, written_flatMap]
    have hruns := congrArg (List.flatMap (bufferRow numExperts bufferId host bank feat))
      (flatMap_runs (a :: l))
    rw [flatMap_assoc] at hruns
    rw [← hruns]
    exact flatMap_congr fun r _ => written_h2d

/-- **A prefetch writes every byte of the buffer exactly once**, each with the byte of the layer's
expert of the same index. -/
theorem written_prefetchSplit
    (hlive : ∀ e < numExperts, hitMask numExperts snap e = true ∧ slots e = snap e ∨
      hitMask numExperts snap e = false ∧ hitMask numExperts slots e = false)
    (hres : ∀ bank feat, feats[bank]? = some feat → ∀ e < numExperts, ∀ s : ℕ, snap e = s →
      2 * numExperts ≤ s → ∀ k < feat, mem (bank, s * feat + k) = host bank (e * feat + k)) :
    (written mem (prefetchSplit numExperts bufferId feats slots snap dst src host)).Perm
      (bufferRows numExperts bufferId host feats) := by
  have hmiss : npNonzero ((range numExperts).map fun e => !hitMask numExperts snap e) =
      (range numExperts).filter fun e => !hitMask numExperts snap e := npNonzero_map_range _ _
  rw [prefetchSplit, written, map_append, gatherEntries, batchEntries]
  rw [hmiss, flatMap_assoc, flatMap_assoc, map_flatMap, map_flatMap]
  refine (flatMap_append_perm _ _ _).trans (List.Perm.flatMap_left _ fun fb hfb => ?_)
  obtain ⟨feat, bank⟩ := fb
  have hfeat := mk_mem_zipIdx_iff_getElem?.mp hfb
  show (written mem _ ++ written mem _).Perm _
  dsimp only
  by_cases hsmall : feat < smallBankFeatBytes
  · have hwhole :
        written mem (CopyEntry.h2d host ⟨bank, (bufferId * numExperts + 0) * feat, 0 * feat,
        numExperts * feat⟩) = _ := written_h2d
    rw [add_zero, Nat.zero_mul, ← range_eq_range'] at hwhole
    rw [if_pos hsmall, if_pos hsmall, flatMap_singleton, hwhole]
    exact List.Perm.refl _
  · rw [if_neg hsmall, if_neg hsmall, written_gather hlive (hres bank feat hfeat) rfl,
      written_batch, ← flatMap_append]
    exact (filter_append_perm _ _).flatMap_right _

theorem mem_bufferRows {w : (ℕ × ℕ) × β} : w ∈ bufferRows numExperts bufferId host feats ↔
    ∃ bank feat, feats[bank]? = some feat ∧ ∃ e < numExperts, ∃ k < feat,
      w = ((bank, (bufferId * numExperts + e) * feat + k), host bank (e * feat + k)) := by
  simp only [bufferRows, bufferRow, mem_flatMap, mem_map, mem_range, Prod.exists,
    mk_mem_zipIdx_iff_getElem?]
  constructor
  · rintro ⟨feat, bank, hfeat, e, he, k, hk, rfl⟩
    exact ⟨bank, feat, hfeat, e, he, k, hk, rfl⟩
  · rintro ⟨bank, feat, hfeat, e, he, k, hk, rfl⟩
    exact ⟨feat, bank, hfeat, e, he, k, hk, rfl⟩

theorem nodup_bufferRows : ((bufferRows numExperts bufferId host feats).map Prod.fst).Nodup := by
  rw [bufferRows, map_flatMap, nodup_flatMap]
  constructor
  · rintro ⟨feat, bank⟩ -
    show (((range numExperts).flatMap
      (bufferRow numExperts bufferId host bank feat)).map Prod.fst).Nodup
    rw [range_eq_range', flatMap_bufferRow, map_map]
    refine List.Nodup.map_on (fun i _ j _ hij => ?_) nodup_range
    exact add_left_cancel (Prod.ext_iff.mp hij).2
  · have hbanks : (feats.zipIdx.map Prod.snd).Nodup := by
      rw [zipIdx_map_snd]
      exact nodup_range'
    refine (pairwise_map.mp hbanks).imp fun {x y} hxy => ?_
    have hbank : ∀ (z : ℕ × ℕ) (a : ℕ × ℕ), a ∈ ((range numExperts).flatMap
        (bufferRow numExperts bufferId host z.2 z.1)).map Prod.fst → a.1 = z.2 := by
      intro z a ha
      simp only [bufferRow, mem_map, mem_flatMap, mem_range] at ha
      obtain ⟨_, ⟨e, -, k, -, rfl⟩, rfl⟩ := ha
      rfl
    exact fun a hx hy => hxy ((hbank x a hx).symm.trans (hbank y a hy))

theorem prefetchSplit_src {w : (ℕ × ℕ) × (ℕ × ℕ ⊕ β)} {a : ℕ × ℕ}
    (hw : w ∈ prefetchSplit numExperts bufferId feats slots snap dst src host) (ha : w.2 = .inl a) :
    ∃ feat, feats[a.1]? = some feat ∧ 2 * numExperts * feat ≤ a.2 := by
  rcases mem_append.mp hw with hw | hw
  · obtain ⟨entry, hentry, hw⟩ := mem_flatMap.mp hw
    obtain ⟨k, -, rfl⟩ := mem_map.mp hw
    obtain rfl := Sum.inl_injective ha
    obtain ⟨⟨feat, bank⟩, hbank, hentry⟩ := mem_flatMap.mp hentry
    have hfeat := mk_mem_zipIdx_iff_getElem?.mp hbank
    dsimp only at hentry
    split_ifs at hentry
    · cases hentry
    · obtain ⟨i, hi, rfl⟩ := mem_map.mp hentry
      have hge := prefillHitCompactKernel_src (bufferId * numExperts) dst src
        (le_nextPowerOf2 numExperts) (mem_range.mp hi)
      exact ⟨feat, hfeat, (Nat.mul_le_mul_right feat hge).trans (Nat.le_add_right _ k)⟩
  · obtain ⟨entry, -, hw⟩ := mem_flatMap.mp hw
    obtain ⟨k, -, rfl⟩ := mem_map.mp hw
    cases ha

theorem notMem_bufferRows {s k : ℕ} (hbuf : bufferId < 2) (hfeat : feats[bank]? = some feat)
    (hs : 2 * numExperts * feat ≤ s) :
    (bank, s + k) ∉ (bufferRows numExperts bufferId host feats).map Prod.fst := by
  intro hmem
  obtain ⟨_, hrow, heq⟩ := mem_map.mp hmem
  obtain ⟨bank', feat', hfeat', e, he, j, hj, rfl⟩ := mem_bufferRows.mp hrow
  obtain ⟨rfl, heq⟩ := Prod.ext_iff.mp heq
  obtain rfl : feat' = feat := Option.some.inj (hfeat'.symm.trans hfeat)
  have hlt : bufferId * numExperts + e + 1 ≤ 2 * numExperts := by
    have := Nat.mul_le_mul_right numExperts (Nat.le_of_lt_succ hbuf)
    omega
  have := Nat.mul_le_mul_right feat' hlt
  rw [add_mul, one_mul] at this
  dsimp only at heq
  omega

/-- The copies of a prefetch, in any order, leave the layer's rows in the buffer and nothing else.
-/
theorem runCopies_prefetchSplit {order : List ((ℕ × ℕ) × (ℕ × ℕ ⊕ β))} (hbuf : bufferId < 2)
    (hwritten : (written mem (prefetchSplit numExperts bufferId feats slots snap dst src host)).Perm
      (bufferRows numExperts bufferId host feats))
    (horder : order.Perm (prefetchSplit numExperts bufferId feats slots snap dst src host)) :
    (order.map Prod.fst).Perm ((bufferRows numExperts bufferId host feats).map Prod.fst) ∧
      (∀ w ∈ bufferRows numExperts bufferId host feats, runCopies mem order w.1 = w.2) ∧
      ∀ a ∉ (bufferRows numExperts bufferId host feats).map Prod.fst,
        runCopies mem order a = mem a := by
  have hcells :
    (order.map Prod.fst).Perm ((bufferRows numExperts bufferId host feats).map Prod.fst) := by
    have := hwritten.map Prod.fst
    rw [written, map_map] at this
    exact (horder.map Prod.fst).trans this
  have hnd : (order.map Prod.fst).Nodup := hcells.nodup_iff.mpr nodup_bufferRows
  -- what is read lies behind both buffers
  have hsrc : ∀ w ∈ order, ∀ a, w.2 = .inl a → a ∉ order.map Prod.fst := by
    intro w hw a ha hmem
    obtain ⟨feat, hfeat, hge⟩ := prefetchSplit_src (horder.mem_iff.mp hw) ha
    exact notMem_bufferRows hbuf hfeat hge (k := 0) (hcells.mem_iff.mp hmem)
  refine ⟨hcells, fun w hw => ?_,
    fun a ha => runCopies_of_notMem fun hmem => ha (hcells.mem_iff.mp hmem)⟩
  obtain ⟨w', hw', rfl⟩ := mem_map.mp (hwritten.mem_iff.mpr hw)
  exact runCopies_of_mem hnd hsrc (horder.mem_iff.mpr hw')

end prefetch

/-! ### A prefill -/

section prefill

variable {β : Type*} {c : OffloadMoeCache} {feats : List ℕ} {host : ℕ → ℕ → ℕ → β}
  {mem₀ mem : ℕ × ℕ → β} {layerId : ℕ}

/-- Every slot that no buffer borrows has the bytes of the expert that `c` holds there; `host` gives
the bytes of a layer's bank. -/
def HitBytes (c : OffloadMoeCache) (feats : List ℕ) (host : ℕ → ℕ → ℕ → β) (mem : ℕ × ℕ → β) :
    Prop :=
  ∀ layerId < c.numLayers, ∀ bank feat, feats[bank]? = some feat → ∀ e < c.numExperts, ∀ s : ℕ,
    c.slotForId (c.flatId layerId e) = s → 2 * c.numExperts ≤ s → ∀ k < feat,
      mem (bank, s * feat + k) = host layerId bank (e * feat + k)

/-- The copies of a prefetch of `layerId`: the snapshot was taken of `c`, and the buffers `bufs`
were invalidated until the gather reads the slot map. -/
def prefetchCopies (c : OffloadMoeCache) (feats : List ℕ) (host : ℕ → ℕ → ℕ → β) (layerId : ℕ)
    (bufs : List ℕ) (dst src : ℕ → ℕ) : List ((ℕ × ℕ) × (ℕ × ℕ ⊕ β)) :=
  prefetchSplit c.numExperts (layerId % 2) feats
    (fun e => (bufs.foldl invalidatePrefillBuffer c).slotForId (c.flatId layerId e))
    (fun e => c.slotForId (c.flatId layerId e)) dst src (host layerId)

/-- The memory of the banks during a prefill that starts with `mem₀`: layer after layer is
prefetched, and the copies of a prefetch come in any order. -/
inductive PrefillRun (c : OffloadMoeCache) (feats : List ℕ) (host : ℕ → ℕ → ℕ → β)
    (mem₀ : ℕ × ℕ → β) : (ℕ × ℕ → β) → Prop
  | beginPrefill : PrefillRun c feats host mem₀ mem₀
  | prefetch (mem : ℕ × ℕ → β) (layerId : ℕ) (bufs : List ℕ) (dst src : ℕ → ℕ)
      (order : List ((ℕ × ℕ) × (ℕ × ℕ ⊕ β))) (h : PrefillRun c feats host mem₀ mem)
      (hl : layerId < c.numLayers) (hbufs : ∀ b ∈ bufs, b < 2)
      (horder : order.Perm (prefetchCopies c feats host layerId bufs dst src)) :
      PrefillRun c feats host mem₀ (runCopies mem order)

theorem HitBytes.written (hbytes : HitBytes c feats host mem) (h : c.Wf)
    (hl : layerId < c.numLayers) {bufs : List ℕ} (hbufs : ∀ b ∈ bufs, b < 2) (dst src : ℕ → ℕ) :
    (written mem (prefetchCopies c feats host layerId bufs dst src)).Perm
      (bufferRows c.numExperts (layerId % 2) (host layerId) feats) := by
  apply written_prefetchSplit
  · intro e he
    simp only [hitMask, decide_eq_true_eq, decide_eq_false_iff_not, not_le]
    exact slotForId_invalidate h hbufs (flatId_lt hl he)
  · exact hbytes layerId hl

/-- A prefetch leaves the slots behind the buffers alone. -/
theorem PrefillRun.hitBytes (h : c.Wf) (h₀ : HitBytes c feats host mem₀)
    (hrun : PrefillRun c feats host mem₀ mem) : HitBytes c feats host mem := by
  induction hrun with
  | beginPrefill => exact h₀
  | prefetch mem layerId bufs dst src order _ hl hbufs horder ih =>
    have hbuf : layerId % 2 < 2 := Nat.mod_lt _ two_pos
    obtain ⟨-, -, hrest⟩ := runCopies_prefetchSplit hbuf (ih.written h hl hbufs dst src) horder
    intro l hl' bank feat hfeat e he s hs hge k hk
    rw [hrest _ (notMem_bufferRows hbuf hfeat (Nat.mul_le_mul_right feat hge))]
    exact ih l hl' bank feat hfeat e he s hs hge k hk

/-- **Staging.**  At any time of a prefill, the copies of the next prefetch write every byte of the
buffer's rows exactly once, and whatever their order, they leave in each row the bytes of the
layer's expert of the same index. -/
theorem prefetch_stages (h : c.Wf) (h₀ : HitBytes c feats host mem₀)
    (hrun : PrefillRun c feats host mem₀ mem) (hl : layerId < c.numLayers) {bufs : List ℕ}
    (hbufs : ∀ b ∈ bufs, b < 2) (dst src : ℕ → ℕ) {order : List ((ℕ × ℕ) × (ℕ × ℕ ⊕ β))}
    (horder : order.Perm (prefetchCopies c feats host layerId bufs dst src)) :
    (order.map Prod.fst).Perm
        ((bufferRows c.numExperts (layerId % 2) (host layerId) feats).map Prod.fst) ∧
      ((bufferRows c.numExperts (layerId % 2) (host layerId) feats).map Prod.fst).Nodup ∧
      (∀ bank feat, feats[bank]? = some feat → ∀ e < c.numExperts, ∀ k < feat,
        runCopies mem order (bank, (layerId % 2 * c.numExperts + e) * feat + k) =
          host layerId bank (e * feat + k)) ∧
      ∀ a ∉ (bufferRows c.numExperts (layerId % 2) (host layerId) feats).map Prod.fst,
        runCopies mem order a = mem a := by
  obtain ⟨hcells, hrows, hrest⟩ := runCopies_prefetchSplit (Nat.mod_lt _ two_pos)
    ((hrun.hitBytes h h₀).written h hl hbufs dst src) horder
  refine ⟨hcells, nodup_bufferRows, ?_, hrest⟩
  intro bank feat hfeat e he k hk
  exact hrows _ (mem_bufferRows.mpr ⟨bank, feat, hfeat, e, he, k, hk, rfl⟩)

/-- Five experts, of which two are in slots behind the buffers; the others are two runs of misses.
-/
def twoHits : OffloadMoeCache :=
  { create 1 5 13 with
    slotForId := fun i => if i = 0 then 12 else if i = 3 then 10 else -1
    idOfSlot := fun s => if s = 12 then 0 else if s = 10 then 3 else -1 }

/-- A memory in which the two slots hold their experts, whose bytes are numbered. -/
def twoHitsMem (a : ℕ × ℕ) : ℕ :=
  let feat := [1, 262144].getD a.1 1
  (if a.2 / feat = 10 then 3 * feat else 0) + a.2 % feat

/-- The gather of a hit and the upload of a miss, in a bank with long rows. -/
theorem prefetch_stages_twoHits :
    let mem := runCopies twoHitsMem
      (prefetchCopies twoHits [1, 262144] (fun _ _ j => j) 0 [0, 1] (fun _ => 0) fun _ => 0)
    mem (1, (0 % 2 * 5 + 3) * 262144 + 7) = 3 * 262144 + 7 ∧ mem (1, (0 % 2 * 5 + 2) * 262144 + 7) =
      2 * 262144 + 7 := by
  have hwf : twoHits.Wf :=
    ⟨⟨by decide, by decide, by decide⟩, by decide, fun _ _ => le_rfl, le_rfl, fun _ _ => le_rfl,
      fun _ _ => (by decide : (-1 : ℤ) ≤ 0)⟩
  have h₀ : HitBytes twoHits [1, 262144] (fun _ _ j => j) twoHitsMem := by
    intro layerId hl bank feat hfeat e he s hs _ k hk
    have hslot : e = 0 ∧ s = 12 ∨ e = 3 ∧ s = 10 := by
      obtain rfl : layerId = 0 := Nat.lt_one_iff.mp hl
      have he' : e < 5 := he
      have hs' : (if 0 * 5 + e = 0 then (12 : ℤ) else if 0 * 5 + e = 3 then 10 else -1) = s := hs
      split_ifs at hs' <;> omega
    have hpos : 0 < feat := Nat.zero_lt_of_lt hk
    show (if (s * feat + k) / [1, 262144].getD bank 1 = 10 then 3 * [1, 262144].getD bank 1
        else 0) + (s * feat + k) % [1, 262144].getD bank 1 = e * feat + k
    rw [getD_eq_getElem?_getD, hfeat, Option.getD_some, mul_comm s, Nat.mul_add_div hpos,
      Nat.mul_add_mod, Nat.mod_eq_of_lt hk, Nat.div_eq_of_lt hk]
    rcases hslot with ⟨rfl, rfl⟩ | ⟨rfl, rfl⟩
    · rw [if_neg (by decide), Nat.zero_mul]
    · rw [if_pos rfl]
  have hrows := (prefetch_stages hwf h₀ .beginPrefill (by decide : 0 < twoHits.numLayers)
    (by decide : ∀ b ∈ [0, 1], b < 2) (fun _ => 0) (fun _ => 0) (.refl _)).2.2.1 1 262144 rfl
  exact ⟨hrows 3 (by decide) 7 (by decide), hrows 2 (by decide) 7 (by decide)⟩

end prefill

end FreeToken
