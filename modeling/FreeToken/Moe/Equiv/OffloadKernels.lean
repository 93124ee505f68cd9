import FreeToken.Moe.OffloadCache
import Mathlib.Tactic.Ring
import Mathlib.Tactic.Linarith

/-!
# Correctness of the expert cache's kernels
-/

namespace FreeToken

open Function List

namespace OffloadMoeCache

variable {c c' : OffloadMoeCache} {layerId e s idx : ℕ} {ids es : List ℕ} {byRecency : Bool}

/-! ### The routed experts -/

theorem foldl_seen (acc : List ℕ) (ids : List ℕ) (h : acc.Nodup) :
    (ids.foldl (fun seen e => if e ∈ seen then seen else seen ++ [e]) acc).Nodup ∧
      ∀ e, e ∈ ids.foldl (fun seen e => if e ∈ seen then seen else seen ++ [e]) acc ↔
        e ∈ acc ∨ e ∈ ids := by
  induction ids generalizing acc with
  | nil => exact ⟨h, fun e => by simp⟩
  | cons x ids ih =>
    rw [foldl_cons]
    split_ifs with hx
    · obtain ⟨hn, hm⟩ := ih acc h
      refine ⟨hn, fun e => ?_⟩
      rw [hm, mem_cons]
      constructor
      · exact fun he => he.imp_right Or.inr
      · rintro (he | rfl | he)
        exacts [Or.inl he, Or.inl hx, Or.inr he]
    · obtain ⟨hn, hm⟩ := ih (acc ++ [x]) (nodup_append.mpr ⟨h, nodup_singleton x, by
          intro a ha b hb
          rintro rfl
          exact hx (mem_singleton.mp hb ▸ ha)⟩)
      refine ⟨hn, fun e => ?_⟩
      rw [hm, mem_append, mem_singleton, mem_cons, or_assoc]

theorem nodup_seen : (seen ids).Nodup := (foldl_seen [] ids nodup_nil).1

theorem mem_seen : e ∈ seen ids ↔ e ∈ ids := by
  have := (foldl_seen [] ids nodup_nil).2 e
  rwa [mem_nil_iff, false_or] at this

/-! ### Hits -/

theorem flatId_inj {e e' : ℕ} : c.flatId layerId e = c.flatId layerId e' ↔ e = e' :=
  add_left_cancel_iff

theorem flatId_lt (hl : layerId < c.numLayers) (he : e < c.numExperts) :
    c.flatId layerId e < c.totalIds := by
  have := Nat.mul_le_mul_right c.numExperts (Nat.succ_le_of_lt hl)
  rw [Nat.succ_mul] at this
  unfold flatId totalIds
  omega

theorem touchHits_eq (hs : SlotMap c.slotForId c.idOfSlot c.totalIds c.cacheSize)
    (hl : layerId < c.numLayers) (hes : ∀ e ∈ es, e < c.numExperts) (t : ℕ) :
    c.touchHits layerId es t =
      if ∃ e ∈ es, c.slotForId (c.flatId layerId e) = t then c.step else c.usage t := by
  induction es using reverseRecOn with
  | nil =>
    simp only [not_mem_nil, false_and, exists_false, if_false]
    rfl
  | append_singleton es e ih =>
    have ih := ih fun e he => hes e (mem_append_left _ he)
    have he := hes e (mem_append_right _ mem_cons_self)
    have hsplit : (∃ e' ∈ es ++ [e], c.slotForId (c.flatId layerId e') = t) ↔
        (∃ e' ∈ es, c.slotForId (c.flatId layerId e') = t) ∨
          c.slotForId (c.flatId layerId e) = t := by
      simp only [mem_append, mem_singleton, or_and_right, exists_or, exists_eq_left]
    unfold touchHits at ih ⊢
    rw [foldl_append, foldl_cons, foldl_nil]
    simp only [hsplit]
    by_cases hne : c.slotForId (c.flatId layerId e) = -1
    · rw [if_neg (not_not.mpr hne), ih, hne]
      simp
    · obtain ⟨s, -, hse, -⟩ := hs.exists_slot (flatId_lt hl he) hne
      rw [if_pos hne, hse, Int.toNat_natCast]
      by_cases hts : t = s
      · rw [hts, update_self, if_pos (Or.inr rfl)]
      · have hst : (s : ℤ) ≠ t := fun h => hts (Nat.cast_injective h).symm
        rw [update_of_ne hts, ih]
        simp only [hst, or_false]

/-! ### One fetch -/

section assignSlot

variable {victim : ℕ} {oldId : ℤ}

theorem assignSlot_slotForId : (c.assignSlot layerId idx victim e oldId).slotForId =
    update (forget c.slotForId oldId) (c.flatId layerId e) victim := rfl

theorem assignSlot_idOfSlot : (c.assignSlot layerId idx victim e oldId).idOfSlot =
    update c.idOfSlot victim (c.flatId layerId e) := rfl

theorem assignSlot_usage : (c.assignSlot layerId idx victim e oldId).usage =
    update c.usage victim c.step := rfl

end assignSlot

/-- What holds during a step in which the experts `active` of a layer are routed: a slot was used in
this step exactly if it holds one of them. -/
structure StepInv (c : OffloadMoeCache) (layerId : ℕ) (active : List ℕ) : Prop where
  slots : SlotMap c.slotForId c.idOfSlot c.totalIds c.cacheSize
  layer : layerId < c.numLayers
  experts_le : c.numExperts ≤ c.cacheSize
  nodup : active.Nodup
  active_lt : ∀ e ∈ active, e < c.numExperts
  usage_le : ∀ s < c.cacheSize, c.usage s ≤ c.step
  used_now : ∀ s < c.cacheSize,
    c.usage s = c.step ↔ ∃ e ∈ active, c.idOfSlot s = c.flatId layerId e

variable {active : List ℕ}

/-- While an active expert has no slot, some slot holds no active expert: there are at least as many
slots as experts. -/
theorem StepInv.exists_cold (h : StepInv c layerId active) (he : e ∈ active)
    (hnone : c.slotForId (c.flatId layerId e) = -1) : ∃ s < c.cacheSize, c.usage s < c.step := by
  by_contra hno
  simp only [not_exists, not_and, not_lt] at hno
  have hown : ∀ s < c.cacheSize, ∃ e' ∈ active.erase e, c.idOfSlot s = c.flatId layerId e' := by
    intro s hs
    obtain ⟨e', he', hid⟩ := (h.used_now s hs).mp (le_antisymm (h.usage_le s hs) (hno s hs))
    refine ⟨e', (h.nodup.mem_erase_iff).mpr ⟨?_, he'⟩, hid⟩
    rintro rfl
    have := (h.slots.link _ (flatId_lt h.layer (h.active_lt e' he')) s hs).mpr hid
    omega
  -- the slots hold distinct experts, so there are fewer slots than experts
  have hsub : (range c.cacheSize).map c.idOfSlot ⊆
      (active.erase e).map fun e' => (c.flatId layerId e' : ℤ) := by
    intro x hx
    obtain ⟨s, hs, rfl⟩ := mem_map.mp hx
    obtain ⟨e', he', hid⟩ := hown s (mem_range.mp hs)
    exact mem_map.mpr ⟨e', he', hid.symm⟩
  have hnd : ((range c.cacheSize).map c.idOfSlot).Nodup := by
    refine List.Nodup.map_on (fun s hs t ht hst => ?_) nodup_range
    rw [mem_range] at hs ht
    obtain ⟨e', he', hid⟩ := hown s hs
    have hlt := flatId_lt h.layer (h.active_lt e' (mem_of_mem_erase he'))
    have h₁ := (h.slots.link _ hlt s hs).mpr hid
    have h₂ := (h.slots.link _ hlt t ht).mpr (hst ▸ hid)
    exact Nat.cast_injective (h₁.symm.trans h₂)
  have h₁ := (hnd.subperm hsub).length_le
  have h₂ : active.length ≤ c.numExperts := by
    have := (h.nodup.subperm fun e he => mem_range.mpr (h.active_lt e he)).length_le
    rwa [length_range] at this
  have h₃ := length_erase_of_mem he
  have h₄ := length_pos_of_mem he
  have h₅ := h.experts_le
  rw [length_map, length_map, length_range] at h₁
  omega

theorem coldestSlot_spec (h : 0 < c.cacheSize) : IsFirstMin c.usage c.cacheSize c.coldestSlot := by
  suffices hfold : ∀ n, IsFirstMin c.usage (n + 1) ((range (n + 1)).foldl (fun best s =>
      if c.usage s < c.usage best ∨ c.usage s = c.usage best ∧ s < best then s else best) 0) by
    have := hfold (c.cacheSize - 1)
    rwa [Nat.sub_add_cancel h] at this
  intro n
  induction n with
  | zero =>
    have hzero : (range (0 + 1)).foldl (fun best s =>
        if c.usage s < c.usage best ∨ c.usage s = c.usage best ∧ s < best then s else best) 0 =
          0 := by
      simp [range_one]
    rw [hzero]
    refine ⟨Nat.one_pos, fun j hj => Or.inr ⟨?_, Nat.zero_le j⟩⟩
    rw [Nat.lt_one_iff.mp hj]
  | succ n ih =>
    obtain ⟨hlt, hle⟩ := ih
    rw [range_succ, foldl_append, foldl_cons, foldl_nil]
    split_ifs with hs
    · refine ⟨Nat.lt_succ_self _, fun j hj => ?_⟩
      by_cases hj' : j < n + 1
      · have := hle j hj'
        omega
      · exact Or.inr ⟨by rw [show j = n + 1 by omega], by omega⟩
    · refine ⟨by omega, fun j hj => ?_⟩
      by_cases hj' : j < n + 1
      · exact hle j hj'
      · obtain rfl : j = n + 1 := by omega
        omega

theorem StepInv.assignSlot (h : StepInv c layerId active) (he : e ∈ active)
    (hnone : c.slotForId (c.flatId layerId e) = -1) {v : ℕ} (hv : v < c.cacheSize) (idx : ℕ) :
    StepInv (c.assignSlot layerId idx v e (c.idOfSlot v)) layerId active := by
  have hlt := flatId_lt h.layer (h.active_lt e he)
  refine ⟨?_, h.layer, h.experts_le, h.nodup, h.active_lt, fun s hs => ?_, fun s hs => ?_⟩
  · exact h.slots.rebind hlt hv hnone
  · rw [assignSlot_usage]
    by_cases hsv : s = v
    · rw [hsv, update_self]
      rfl
    · rw [update_of_ne hsv]
      exact h.usage_le s hs
  · rw [assignSlot_usage, assignSlot_idOfSlot]
    by_cases hsv : s = v
    · rw [hsv, update_self, update_self]
      exact ⟨fun _ => ⟨e, he, rfl⟩, fun _ => rfl⟩
    · rw [update_of_ne hsv, update_of_ne hsv]
      exact h.used_now s hs

theorem StepInv.coldestSlot (h : StepInv c layerId active) (he : e ∈ active)
    (hnone : c.slotForId (c.flatId layerId e) = -1) :
    IsFirstMin c.usage c.cacheSize c.coldestSlot ∧ c.usage c.coldestSlot < c.step := by
  obtain ⟨s, hs, hcold⟩ := h.exists_cold he hnone
  have hmin := coldestSlot_spec (c := c) (by omega)
  have := hmin.2 s hs
  exact ⟨hmin, by omega⟩

/-- A fetch into a slot that was not used in this step leaves the active experts alone. -/
theorem StepInv.slotForId_assignSlot (h : StepInv c layerId active) {v : ℕ} (hv : v < c.cacheSize)
    (hcold : c.usage v < c.step) (idx : ℕ) {e' : ℕ} (he' : e' ∈ active) (hne : e' ≠ e) :
    (c.assignSlot layerId idx v e (c.idOfSlot v)).slotForId (c.flatId layerId e') =
      c.slotForId (c.flatId layerId e') := by
  rw [assignSlot_slotForId, update_of_ne fun h => hne (flatId_inj.mp h)]
  refine forget_of_ne fun hid => ?_
  have := (h.used_now v hv).mpr ⟨e', he', hid⟩
  omega

/-- What the fetches of a step do: each expert of the list gets a slot and is in the copy list with
it, the other active experts keep theirs, and the others keep theirs or lose it. -/
structure Fetched (c c' : OffloadMoeCache) (layerId idx : ℕ) (active es : List ℕ) : Prop where
  inv : StepInv c' layerId active
  frame : c' = { c with
    slotForId := c'.slotForId
    idOfSlot := c'.idOfSlot
    usage := c'.usage
    evictSlots := c'.evictSlots
    srcIndices := c'.srcIndices }
  listed : ∀ k, (hk : k < es.length) → c'.srcIndices (idx + k) = es[k] ∧
    c'.slotForId (c.flatId layerId es[k]) = c'.evictSlots (idx + k)
  before : ∀ k < idx, c'.srcIndices k = c.srcIndices k ∧ c'.evictSlots k = c.evictSlots k
  kept : ∀ e ∈ active, e ∉ es → c'.slotForId (c.flatId layerId e) = c.slotForId (c.flatId layerId e)
  others : ∀ i, (∀ e ∈ es, i ≠ c.flatId layerId e) →
    c'.slotForId i = c.slotForId i ∨ c'.slotForId i = -1

theorem fetchLoop_spec (idx : ℕ) (h : StepInv c layerId active) (hn : es.Nodup) (hes : es ⊆ active)
    (hnone : ∀ e ∈ es, c.slotForId (c.flatId layerId e) = -1) :
    Fetched c (c.fetchLoop layerId idx es) layerId idx active es := by
  induction es generalizing c idx with
  | nil =>
    exact ⟨h, rfl, fun k hk => absurd hk (Nat.not_lt_zero k), fun _ _ => ⟨rfl, rfl⟩,
      fun _ _ _ => rfl, fun _ _ => Or.inl rfl⟩
  | cons e es ih =>
    obtain ⟨hne, hn⟩ := nodup_cons.mp hn
    have he := hes mem_cons_self
    have hnone_e := hnone e mem_cons_self
    obtain ⟨⟨hv, -⟩, hcold⟩ := h.coldestSlot he hnone_e
    obtain ⟨v, hv_def⟩ : ∃ v, v = c.coldestSlot := ⟨_, rfl⟩
    rw [fetchLoop, ← hv_def]
    rw [← hv_def] at hv hcold
    obtain ⟨c₁, hc₁⟩ : ∃ c₁, c₁ = c.assignSlot layerId idx v e (c.idOfSlot v) := ⟨_, rfl⟩
    -- the slot taken is cold, so no active expert loses its own
    have hkeep : ∀ e' ∈ active, e' ≠ e →
        c₁.slotForId (c.flatId layerId e') = c.slotForId (c.flatId layerId e') :=
      fun e' he' hne' => hc₁ ▸ h.slotForId_assignSlot hv hcold idx he' hne'
    have hflat : c₁.flatId layerId = c.flatId layerId := by rw [hc₁]; rfl
    have hself : c₁.slotForId (c.flatId layerId e) = v := by
      rw [hc₁, assignSlot_slotForId, update_self]
    have hstep := ih (c := c₁) (idx + 1) (hc₁ ▸ h.assignSlot he hnone_e hv idx) hn
      (fun e' he' => hes (mem_cons_of_mem e he')) (fun e' he' => by
        have hne' : e' ≠ e := fun heq => hne (heq ▸ he')
        rw [hflat, hkeep e' (hes (mem_cons_of_mem e he')) hne']
        exact hnone e' (mem_cons_of_mem e he'))
    rw [← hc₁]
    refine ⟨hstep.inv, ?_, fun k hk => ?_, fun k hk => ?_, fun e' he' hne' => ?_, fun i hi => ?_⟩
    · rw [hstep.frame, hc₁]
      rfl
    · -- the first entry of the lists is this fetch, and the rest of the loop leaves it
      cases k with
      | zero =>
        obtain ⟨hsrc, hevict⟩ := hstep.before idx (Nat.lt_succ_self idx)
        have h₁ : c₁.srcIndices idx = e := by rw [hc₁]; exact update_self _ _ _
        have h₂ : c₁.evictSlots idx = v := by rw [hc₁]; exact update_self _ _ _
        refine ⟨hsrc.trans h₁, ?_⟩
        have := hstep.kept e he hne
        rw [hflat] at this
        show (c₁.fetchLoop layerId (idx + 1) es).slotForId (c.flatId layerId e) =
          ((c₁.fetchLoop layerId (idx + 1) es).evictSlots idx : ℕ)
        rw [this, hself, hevict, h₂]
      | succ k =>
        have := hstep.listed k (Nat.lt_of_succ_lt_succ hk)
        rw [hflat] at this
        rw [← add_assoc, add_right_comm]
        exact this
    · obtain ⟨hsrc, hevict⟩ := hstep.before k (by omega)
      rw [hsrc, hevict, hc₁]
      have hki : k ≠ idx := by omega
      exact ⟨update_of_ne hki _ _, update_of_ne hki _ _⟩
    · obtain ⟨hne₁, hne₂⟩ := not_or.mp (mt mem_cons.mpr hne')
      have := hstep.kept e' he' hne₂
      rw [hflat] at this
      rw [this, hkeep e' he' hne₁]
    · have := hstep.others i fun e' he' => by
        rw [hflat]
        exact hi e' (mem_cons_of_mem e he')
      -- the expert that was in the slot is the only other one to move
      rcases this with hsame | hgone
      · rw [hsame, hc₁, assignSlot_slotForId, update_of_ne (hi e mem_cons_self)]
        by_cases hid : c.idOfSlot v = i
        · exact Or.inr (forget_eq_neg hid)
        · exact Or.inl (forget_of_ne hid)
      · exact Or.inr hgone

/-! ### The reference -/

/-- The invariant of the cache between steps: the slot map is a bijection, no slot was used and no
expert was active later than now. -/
structure Wf (c : OffloadMoeCache) : Prop where
  slots : SlotMap c.slotForId c.idOfSlot c.totalIds c.cacheSize
  experts_le : c.numExperts ≤ c.cacheSize
  usage_le : ∀ s < c.cacheSize, c.usage s ≤ c.step
  step_nonneg : 0 ≤ c.step
  recency_ge : ∀ i < c.totalIds, -1 ≤ c.expertRecency i
  recency_le : ∀ i < c.totalIds, c.expertRecency i ≤ c.step

/-- The cache after the first part of a step: the clock is advanced, the hits are touched. -/
def begun (c : OffloadMoeCache) (layerId : ℕ) (expertIds : List ℕ) : OffloadMoeCache :=
  let zeroed : ℕ → ℤ := fun expert => if expert < c.numExperts then 0 else c.activeMask expert
  let c' := { c with activeMask := indexFill zeroed (seen expertIds) 1, step := c.step + 1 }
  { c' with usage := c'.touchHits layerId (seen expertIds) }

def numFetched (c : OffloadMoeCache) (byRecency : Bool) (layerId : ℕ) (expertIds : List ℕ)
    (maxFetch fracQ16 : ℤ) : ℤ :=
  min ((c.missing byRecency layerId (seen expertIds)).length : ℤ)
    (fetchCap maxFetch fracQ16 (c.missing byRecency layerId (seen expertIds)).length)

/-- The fetches of a step from the cache that has begun it. -/
def fetched (c : OffloadMoeCache) (byRecency : Bool) (layerId : ℕ) (expertIds : List ℕ)
    (maxFetch fracQ16 : ℤ) : OffloadMoeCache :=
  let c' := { c.begun layerId expertIds with
    numMissingFull := (c.missing byRecency layerId (seen expertIds)).length
    numIndices := c.numFetched byRecency layerId expertIds maxFetch fracQ16 }
  c'.fetchLoop layerId 0 ((c.missing byRecency layerId (seen expertIds)).take
    (c.numFetched byRecency layerId expertIds maxFetch fracQ16).toNat)

theorem ensureExpertsHybridCpu_eq (maxFetch fracQ16 : ℤ) :
    ensureExpertsHybridCpu byRecency c layerId ids maxFetch fracQ16 =
      ((if byRecency then
        { c.fetched byRecency layerId ids maxFetch fracQ16 with
          expertRecency :=
            indexFill (c.fetched byRecency layerId ids maxFetch fracQ16).expertRecency
            ((seen ids).map (c.flatId layerId))
            (c.fetched byRecency layerId ids maxFetch fracQ16).step }
        else c.fetched byRecency layerId ids maxFetch fracQ16),
      ids.map fun e => (c.fetched byRecency layerId ids maxFetch fracQ16).slotForId
        (c.flatId layerId e)) := by
  cases byRecency <;> rfl

/-! #### The missing experts -/

variable {maxFetch fracQ16 : ℤ}

theorem missing_perm : (c.missing byRecency layerId (seen ids)).Perm
    ((seen ids).filter fun e => c.slotForId (c.flatId layerId e) = -1) :=
  perm_insertionSort _ _

theorem nodup_missing : (c.missing byRecency layerId (seen ids)).Nodup :=
  missing_perm.nodup_iff.mpr (nodup_seen.filter _)

theorem mem_missing : e ∈ c.missing byRecency layerId (seen ids) ↔
    e ∈ ids ∧ c.slotForId (c.flatId layerId e) = -1 := by
  rw [missing_perm.mem_iff, mem_filter, mem_seen, decide_eq_true_eq]

theorem pairwise_missing : (c.missing byRecency layerId (seen ids)).Pairwise fun a b =>
    c.fetchKey byRecency layerId a ≤ c.fetchKey byRecency layerId b :=
  pairwise_insertionSort _ _

/-! #### The step -/

theorem Wf.begun (h : c.Wf) (hl : layerId < c.numLayers) (hids : ∀ e ∈ ids, e < c.numExperts) :
    StepInv (c.begun layerId ids) layerId (seen ids) := by
  have hseen : ∀ e ∈ seen ids, e < c.numExperts := fun e he => hids e (mem_seen.mp he)
  have husage : ∀ s, (c.begun layerId ids).usage s =
      if ∃ e ∈ seen ids, c.slotForId (c.flatId layerId e) = s then c.step + 1 else c.usage s :=
    fun s => touchHits_eq (c := { c with
      activeMask := (c.begun layerId ids).activeMask
      step := c.step + 1 }) h.slots hl hseen s
  refine ⟨h.slots, hl, h.experts_le, nodup_seen, hseen, fun s hs => ?_, fun s hs => ?_⟩
  · show _ ≤ c.step + 1
    rw [husage]
    have := h.usage_le s hs
    split_ifs <;> omega
  · show _ = c.step + 1 ↔ ∃ e ∈ seen ids, c.idOfSlot s = c.flatId layerId e
    rw [husage]
    have hlink : (∃ e ∈ seen ids, c.slotForId (c.flatId layerId e) = s) ↔
        ∃ e ∈ seen ids, c.idOfSlot s = c.flatId layerId e :=
      exists_congr fun e => and_congr_right fun he =>
        h.slots.link _ (flatId_lt hl (hseen e he)) s hs
    rw [← hlink]
    have := h.usage_le s hs
    split_ifs with hex
    · exact iff_of_true rfl hex
    · exact iff_of_false (by omega) hex

theorem Wf.fetched (h : c.Wf) (hl : layerId < c.numLayers) (hids : ∀ e ∈ ids, e < c.numExperts)
    (byRecency : Bool) (maxFetch fracQ16 : ℤ) :
    Fetched { c.begun layerId ids with
      numMissingFull := (c.missing byRecency layerId (seen ids)).length
      numIndices := c.numFetched byRecency layerId ids maxFetch fracQ16 }
      (c.fetched byRecency layerId ids maxFetch fracQ16) layerId 0
      (seen ids) ((c.missing byRecency layerId (seen ids)).take
        (c.numFetched byRecency layerId ids maxFetch fracQ16).toNat) := by
  have hbegun := h.begun hl hids
  have hmem : ∀ e ∈ (c.missing byRecency layerId (seen ids)).take
      (c.numFetched byRecency layerId ids maxFetch fracQ16).toNat,
      e ∈ ids ∧ c.slotForId (c.flatId layerId e) = -1 :=
    fun e he => mem_missing.mp (mem_of_mem_take he)
  have hrun := fetchLoop_spec (c := { c.begun layerId ids with
      numMissingFull := (c.missing byRecency layerId (seen ids)).length
      numIndices := c.numFetched byRecency layerId ids maxFetch fracQ16 }) 0
    ⟨hbegun.slots, hbegun.layer, hbegun.experts_le, hbegun.nodup, hbegun.active_lt,
      hbegun.usage_le, hbegun.used_now⟩ (nodup_missing.sublist (take_sublist _ _))
    (fun e he => mem_seen.mpr (hmem e he).1) (fun e he => (hmem e he).2)
  exact hrun

/-! ### The kernel -/

/-- What the fetch loop of the kernel carries while the experts `rest` are still to be fetched: `u`
holds the last uses of the slots that were not used in this step, `score` the priorities of the
experts. -/
structure KernelInv (c₀ : OffloadMoeCache) (blockE blockC layerId : ℕ) (active : List ℕ)
    (oid : ℕ → ℤ) (st : FetchState) (rest : List ℕ) : Prop where
  inv : StepInv st.cache layerId active
  sizes : st.cache.numExperts = c₀.numExperts
  rest_active : ∀ e ∈ rest, e ∈ active ∧ st.cache.slotForId (c₀.flatId layerId e) = -1
  u : ∀ s < blockC, st.u s =
    if s < st.cache.cacheSize ∧ st.cache.usage s < st.cache.step then st.cache.usage s else int64Max
  oid : ∀ s < st.cache.cacheSize, st.cache.usage s < st.cache.step → oid s = st.cache.idOfSlot s
  score : ∀ e < blockE, st.score e =
    if e ∈ rest then
      c₀.expertRecency (c₀.flatId layerId e) * c₀.numExperts + (c₀.numExperts - 1 - e)
    else noScore

section kernel

variable {c₀ : OffloadMoeCache} {blockE blockC : ℕ} {oid : ℕ → ℤ} {st : FetchState} {rest : List ℕ}
  {isMissing : ℕ → Bool}

/-- The kernel evicts the same slot as the reference. -/
theorem KernelInv.victim (h : KernelInv c₀ blockE blockC layerId active oid st (e :: rest))
    (hC : st.cache.cacheSize ≤ blockC) (h64 : st.cache.step < int64Max) :
    laneArgmin st.u blockC = st.cache.coldestSlot := by
  obtain ⟨he, hnone⟩ := h.rest_active e mem_cons_self
  have hflat : st.cache.flatId layerId e = c₀.flatId layerId e := by rw [flatId, h.sizes]; rfl
  obtain ⟨⟨hv, hmin⟩, hcold⟩ := h.inv.coldestSlot he (hflat ▸ hnone)
  apply IsFirstMin.laneArgmin_eq
  refine ⟨by omega, fun j hj => ?_⟩
  rw [h.u _ (by omega), if_pos ⟨hv, hcold⟩, h.u j hj]
  split_ifs with hfree
  · exact hmin j hfree.1
  · exact Or.inl (by omega)

theorem KernelInv.oldId (h : KernelInv c₀ blockE blockC layerId active oid st (e :: rest))
    (hC : st.cache.cacheSize ≤ blockC) :
    laneSum blockC (fun s => if s = st.cache.coldestSlot then oid s else 0) =
      st.cache.idOfSlot st.cache.coldestSlot := by
  obtain ⟨he, hnone⟩ := h.rest_active e mem_cons_self
  have hflat : st.cache.flatId layerId e = c₀.flatId layerId e := by rw [flatId, h.sizes]; rfl
  obtain ⟨⟨hv, -⟩, hcold⟩ := h.inv.coldestSlot he (hflat ▸ hnone)
  rw [laneSum_eq_single (m := st.cache.coldestSlot) (by omega) fun i _ hi => if_neg hi, if_pos rfl]
  exact h.oid _ hv hcold

theorem score_lt (he : e < c₀.numExperts) {j : ℕ} (hne : j ≠ e)
    (hle : c₀.fetchKey true layerId e ≤ c₀.fetchKey true layerId j) :
    c₀.expertRecency (c₀.flatId layerId j) * c₀.numExperts + (c₀.numExperts - 1 - j) <
      c₀.expertRecency (c₀.flatId layerId e) * c₀.numExperts + (c₀.numExperts - 1 - e) := by
  simp only [fetchKey, if_true, Prod.Lex.toLex_le_toLex] at hle
  rcases hle with hlt | ⟨heq, hle⟩
  · have hrec : c₀.expertRecency (c₀.flatId layerId j) + 1 ≤
        c₀.expertRecency (c₀.flatId layerId e) := by omega
    have := mul_le_mul_of_nonneg_right hrec (Int.natCast_nonneg c₀.numExperts)
    rw [add_mul, one_mul] at this
    omega
  · rw [neg_inj.mp heq]
    omega

theorem noScore_lt (he : e < c₀.numExperts) (hE : (c₀.numExperts : ℤ) < 2 ^ 60) {r : ℤ}
    (hr : -1 ≤ r) : noScore < r * c₀.numExperts + (c₀.numExperts - 1 - e) := by
  have := mul_le_mul_of_nonneg_right hr (Int.natCast_nonneg c₀.numExperts)
  unfold noScore
  omega

theorem KernelInv.argmax (h : KernelInv c₀ blockE blockC layerId active oid st (e :: rest))
    (hE : c₀.numExperts ≤ blockE) (h60 : (c₀.numExperts : ℤ) < 2 ^ 60)
    (hrec : ∀ i < c₀.totalIds, -1 ≤ c₀.expertRecency i) (hl : layerId < c₀.numLayers)
    (hact : ∀ e ∈ active, e < c₀.numExperts)
    (hsort : (e :: rest).Pairwise fun a b =>
      c₀.fetchKey true layerId a ≤ c₀.fetchKey true layerId b) :
    laneArgmax st.score blockE = e := by
  have he := hact e (h.rest_active e mem_cons_self).1
  apply laneArgmax_eq (by omega)
  intro j hj hne
  rw [h.score j hj, h.score e (by omega), if_pos mem_cons_self]
  split_ifs with hjm
  · have hjr := (mem_cons.mp hjm).resolve_left hne
    exact score_lt he hne ((pairwise_cons.mp hsort).1 j hjr)
  · exact noScore_lt he h60 (hrec _ (flatId_lt hl he))

theorem missing_eq_filter (hm : ∀ e, isMissing e = true ↔ e ∈ c₀.missing false layerId (seen ids))
    (hE : ∀ e ∈ c₀.missing false layerId (seen ids), e < blockE) :
    c₀.missing false layerId (seen ids) = (range blockE).filter isMissing := by
  apply @List.Perm.eq_of_pairwise _ (· ≤ ·) _ _ (fun a b _ _ => le_antisymm)
  · refine pairwise_missing.imp fun {a b} hab => ?_
    simp only [fetchKey, Bool.false_eq_true, if_false, Prod.Lex.toLex_le_toLex, lt_irrefl, true_and,
      false_or] at hab
    exact hab
  · exact (pairwise_lt_range.imp le_of_lt).filter _
  · rw [perm_ext_iff_of_nodup nodup_missing (nodup_range.filter _)]
    intro e
    rw [mem_filter, mem_range, hm]
    exact ⟨fun he => ⟨hE e he, he⟩, fun he => he.2⟩

/-- By number, the kernel picks the expert whose rank is the number of the fetch. -/
theorem laneSum_rank (hidx : ((range blockE).filter isMissing)[idx]? = some e) :
    (laneSum blockE fun e' =>
      if laneCumsum (maskInt isMissing) e' - 1 = idx ∧ isMissing e' then (e' : ℤ) else 0).toNat =
        e := by
  have hmem := mem_of_getElem? hidx
  rw [mem_filter, mem_range] at hmem
  have hrank : ((range e).filter isMissing).length = idx := by
    have h₁ := getElem?_filter_range hmem.1 hmem.2
    have hlt := (List.getElem?_eq_some_iff.mp hidx).1
    exact ((getElem?_inj hlt (nodup_range.filter _)).mp (hidx.trans h₁.symm)).symm
  have hone : ∀ e' < blockE, e' ≠ e →
      (if laneCumsum (maskInt isMissing) e' - 1 = idx ∧ isMissing e' then (e' : ℤ) else 0) = 0 := by
    intro e' he' hne
    refine if_neg fun h => hne ?_
    obtain ⟨hr, hp⟩ := h
    rw [rank_eq hp] at hr
    exact rank_inj he' hmem.1 hp hmem.2 (by omega)
  rw [laneSum_eq_single hmem.1 hone, rank_eq hmem.2, hrank, if_pos ⟨rfl, hmem.2⟩, Int.toNat_natCast]

theorem KernelInv.fetch (h : KernelInv c₀ blockE blockC layerId active oid st (e :: rest))
    (hn : (e :: rest).Nodup) (hC : st.cache.cacheSize ≤ blockC) (h64 : st.cache.step < int64Max)
    (hpick : (if byRecency then laneArgmax st.score blockE
      else (laneSum blockE fun e' =>
        if laneCumsum (maskInt isMissing) e' - 1 = idx ∧ isMissing e' then (e' : ℤ) else 0).toNat) =
          e) :
    (kernelFetch byRecency blockE blockC layerId oid isMissing st idx).cache =
        st.cache.assignSlot layerId idx st.cache.coldestSlot e
          (st.cache.idOfSlot st.cache.coldestSlot) ∧
      KernelInv c₀ blockE blockC layerId active oid
        (kernelFetch byRecency blockE blockC layerId oid isMissing st idx) rest := by
  obtain ⟨he, hnone⟩ := h.rest_active e mem_cons_self
  have hflat : ∀ e, st.cache.flatId layerId e = c₀.flatId layerId e := fun e => by
    rw [flatId, h.sizes]
    rfl
  obtain ⟨⟨hv, -⟩, hcold⟩ := h.inv.coldestSlot he (hflat e ▸ hnone)
  obtain ⟨v, hvdef⟩ : ∃ v, v = st.cache.coldestSlot := ⟨_, rfl⟩
  -- the kernel picks the victim and the expert that the reference picks
  have hfetch : kernelFetch byRecency blockE blockC layerId oid isMissing st idx =
      { cache := st.cache.assignSlot layerId idx v e (st.cache.idOfSlot v)
        u := fun s => if s = v then int64Max else st.u s
        score := fun e' => if e' = e then noScore else st.score e' } := by
    unfold kernelFetch
    simp only [hpick, h.victim hC h64, h.oldId hC, hvdef]
  rw [hfetch, ← hvdef]
  rw [← hvdef] at hv hcold
  refine ⟨rfl, h.inv.assignSlot he (hflat e ▸ hnone) hv idx, h.sizes, fun e' he' => ?_,
    fun s hs => ?_, fun s hs hlt => ?_, fun e' he' => ?_⟩
  · obtain ⟨hact, hnone'⟩ := h.rest_active e' (mem_cons_of_mem e he')
    have hne : e' ≠ e := fun heq => (nodup_cons.mp hn).1 (heq ▸ he')
    refine ⟨hact, ?_⟩
    have := h.inv.slotForId_assignSlot hv hcold idx hact hne
    rw [hflat] at this
    exact this.trans hnone'
  · show (if s = v then int64Max else st.u s) = if s < st.cache.cacheSize ∧
      update st.cache.usage v st.cache.step s < st.cache.step then
        update st.cache.usage v st.cache.step s else int64Max
    by_cases hsv : s = v
    · rw [if_pos hsv, hsv, update_self, if_neg fun h => lt_irrefl _ h.2]
    · rw [if_neg hsv, update_of_ne hsv, h.u s hs]
  · have hsv : s ≠ v := by
      rintro rfl
      rw [assignSlot_usage, update_self] at hlt
      exact lt_irrefl _ hlt
    rw [assignSlot_usage, update_of_ne hsv] at hlt
    rw [assignSlot_idOfSlot, update_of_ne hsv]
    exact h.oid s hs hlt
  · show (if e' = e then noScore else st.score e') = _
    by_cases hee : e' = e
    · rw [if_pos hee, hee, if_neg (nodup_cons.mp hn).1]
    · rw [if_neg hee, h.score e' he']
      simp only [mem_cons, hee, false_or]

/-- **The fetch loop**: the kernel does the fetches of the reference. -/
theorem KernelInv.loop (hE : c₀.numExperts ≤ blockE) (h60 : (c₀.numExperts : ℤ) < 2 ^ 60)
    (hrec : ∀ i < c₀.totalIds, -1 ≤ c₀.expertRecency i) (hl : layerId < c₀.numLayers)
    (hids : ∀ e ∈ ids, e < c₀.numExperts)
    (hm : ∀ e, isMissing e = true ↔ e ∈ c₀.missing byRecency layerId (seen ids)) (pre : List ℕ)
    (hms : c₀.missing byRecency layerId (seen ids) = pre ++ rest)
    (h : KernelInv c₀ blockE blockC layerId (seen ids) oid st rest)
    (hC : st.cache.cacheSize ≤ blockC) (h64 : st.cache.step < int64Max) {n : ℕ}
    (hn : n ≤ rest.length) :
    ((range' pre.length n).foldl
      (kernelFetch byRecency blockE blockC layerId oid isMissing) st).cache =
        st.cache.fetchLoop layerId pre.length (rest.take n) := by
  -- by induction on the iterations: the missing experts of this call are `pre` and then `rest`
  induction n generalizing st pre rest with
  | zero => rfl
  | succ n ih =>
    cases rest with
    | nil => exact absurd hn (Nat.not_succ_le_zero n)
    | cons e rest =>
      have hnd : (e :: rest).Nodup :=
        nodup_missing.sublist (hms ▸ sublist_append_right pre (e :: rest))
      -- the kernel picks the next one, by its score or by its rank among the missing lanes
      have hpick : (if byRecency then laneArgmax st.score blockE
          else (laneSum blockE fun e' =>
            if laneCumsum (maskInt isMissing) e' - 1 = pre.length ∧ isMissing e' then (e' : ℤ)
            else 0).toNat) = e := by
        cases byRecency with
        | true =>
          rw [if_pos rfl]
          have hsort : (c₀.missing true layerId (seen ids)).Pairwise _ := pairwise_missing
          rw [hms] at hsort
          exact h.argmax hE h60 hrec hl (fun e he => hids e (mem_seen.mp he))
            (pairwise_append.mp hsort).2.1
        | false =>
          rw [if_neg Bool.false_ne_true]
          have hlt : ∀ e ∈ c₀.missing false layerId (seen ids), e < blockE := fun e he => by
            have := hids e (mem_missing.mp he).1
            omega
          apply laneSum_rank
          rw [← missing_eq_filter hm hlt, hms]
          simp
      obtain ⟨hcache, hinv⟩ := h.fetch hnd hC h64 hpick
      have hsz :
          (kernelFetch byRecency blockE blockC layerId oid isMissing st
            pre.length).cache.cacheSize = st.cache.cacheSize := by rw [hcache]; rfl
      have hstep :
          (kernelFetch byRecency blockE blockC layerId oid isMissing st pre.length).cache.step =
          st.cache.step := by rw [hcache]; rfl
      have := ih (pre ++ [e]) (by rw [hms, append_assoc]; rfl) hinv (hsz ▸ hC)
        (hstep ▸ h64) (Nat.le_of_succ_le_succ hn)
      rw [length_append, length_singleton, hcache] at this
      rw [range'_succ, foldl_cons, take_succ_cons, fetchLoop]
      exact this

/-! #### Phase 1 -/

theorem isActive_iff : isActive ids e = true ↔ e ∈ ids := by
  simp [isActive]

theorem isMissing_iff (byRecency : Bool) (hids : ∀ e ∈ ids, e < c.numExperts) (e : ℕ) :
    c.isMissing layerId ids e = true ↔ e ∈ c.missing byRecency layerId (seen ids) := by
  rw [mem_missing, isMissing, Bool.and_eq_true, Bool.and_eq_true, isActive_iff, beq_iff_eq,
    decide_eq_true_eq, laneSlot]
  constructor
  · rintro ⟨⟨he, hs⟩, hlt⟩
    rw [if_pos hlt] at hs
    exact ⟨he, hs⟩
  · rintro ⟨he, hs⟩
    rw [if_pos (hids e he)]
    exact ⟨⟨he, hs⟩, hids e he⟩

theorem laneSum_isMissing (byRecency : Bool) (hids : ∀ e ∈ ids, e < c.numExperts)
    (hE : c.numExperts ≤ blockE) :
    laneSum blockE (maskInt (c.isMissing layerId ids)) =
      (c.missing byRecency layerId (seen ids)).length := by
  rw [laneSum_maskInt]
  congr 1
  apply List.Perm.length_eq
  rw [perm_ext_iff_of_nodup (nodup_range.filter _) nodup_missing]
  intro e
  rw [mem_filter, mem_range, isMissing_iff byRecency hids]
  refine ⟨fun he => he.2, fun he => ⟨?_, he⟩⟩
  have := hids e (mem_missing.mp he).1
  omega

theorem kernelBegin_eq (byRecency : Bool) (h : c.Wf) (hl : layerId < c.numLayers)
    (hids : ∀ e ∈ ids, e < c.numExperts) (hE : c.numExperts ≤ blockE) :
    c.kernelBegin blockE layerId ids maxFetch fracQ16 = { c.begun layerId ids with
      numMissingFull := (c.missing byRecency layerId (seen ids)).length
      numIndices := c.numFetched byRecency layerId ids maxFetch fracQ16 } := by
  have hmask : laneStore blockE (fun e => decide (e < c.numExperts)) id (maskInt (isActive ids))
      c.activeMask = (c.begun layerId ids).activeMask := by
    have hbegun : (c.begun layerId ids).activeMask =
        indexFill (fun e => if e < c.numExperts then 0 else c.activeMask e) (seen ids) 1 := rfl
    ext e
    rw [hbegun]
    by_cases he : e < c.numExperts
    · have hlane : ∀ j < blockE, decide (j < c.numExperts) = true → id j = e →
          maskInt (isActive ids) j = maskInt (isActive ids) e :=
        fun j _ _ hj => congrArg _ hj
      have hei : id e = e := rfl
      rw [laneStore_of_eq (i := e) (by omega) (decide_eq_true he) hei hlane, maskInt]
      by_cases ha : e ∈ ids
      · rw [if_pos (isActive_iff.mpr ha), indexFill_of_mem (mem_seen.mpr ha)]
      · rw [if_neg fun h => ha (isActive_iff.mp h), indexFill_of_notMem (mt mem_seen.mp ha),
          if_pos he]
    · rw [laneStore_of_ne fun j _ hj heq => he ?_, indexFill_of_notMem, if_neg he]
      · exact fun hm => he (hids e (mem_seen.mp hm))
      · rw [decide_eq_true_eq] at hj
        rwa [show j = e from heq] at hj
  -- every active expert with a slot is a hit lane, and the other way around
  have husage : laneStore blockE (c.isHit layerId ids) (fun e => (c.laneSlot layerId e).toNat)
      (fun _ => c.step + 1) c.usage = (c.begun layerId ids).usage := by
    ext s
    have := touchHits_eq (c := { c with
      activeMask := (c.begun layerId ids).activeMask
      step := c.step + 1 }) h.slots hl (fun e he => hids e (mem_seen.mp he)) s
    refine Eq.trans ?_ this.symm
    show _ = if ∃ e ∈ seen ids, c.slotForId (c.flatId layerId e) = s then c.step + 1 else c.usage s
    split_ifs with hex
    · obtain ⟨e, he, hes⟩ := hex
      have heids := mem_seen.mp he
      have hlt := hids e heids
      have hslot : c.laneSlot layerId e = s := by rw [laneSlot, if_pos hlt, hes]
      have hhit : c.isHit layerId ids e = true := by
        rw [isHit, Bool.and_eq_true, isActive_iff, decide_eq_true_eq, hslot]
        exact ⟨heids, Int.natCast_nonneg s⟩
      exact laneStore_of_eq (by omega) hhit (by rw [hslot, Int.toNat_natCast]) fun _ _ _ _ => rfl
    · refine laneStore_of_ne fun e _ hhit heq => hex ?_
      rw [isHit, Bool.and_eq_true, isActive_iff, decide_eq_true_eq] at hhit
      refine ⟨e, mem_seen.mpr hhit.1, ?_⟩
      have h0 := hhit.2
      rw [laneSlot, if_pos (hids e hhit.1)] at h0 heq
      omega
  unfold kernelBegin
  dsimp only
  rw [laneSum_isMissing byRecency hids hE, hmask, husage]
  rfl

theorem Wf.stepInv_begun (h : c.Wf) (hl : layerId < c.numLayers)
    (hids : ∀ e ∈ ids, e < c.numExperts) (m n : ℤ) :
    StepInv { c.begun layerId ids with numMissingFull := m, numIndices := n } layerId (seen ids) :=
  have hb := h.begun hl hids
  ⟨hb.slots, hb.layer, hb.experts_le, hb.nodup, hb.active_lt, hb.usage_le, hb.used_now⟩

theorem Wf.kernelInv (h : c.Wf) (hl : layerId < c.numLayers) (hids : ∀ e ∈ ids, e < c.numExperts)
    (m n : ℤ) :
    let c₁ := { c.begun layerId ids with numMissingFull := m, numIndices := n }
    KernelInv c blockE blockC layerId (seen ids) c₁.laneOid
      ⟨c₁, c₁.kernelUsage layerId ids, c.kernelScore layerId ids⟩
      (c.missing byRecency layerId (seen ids)) := by
  intro c₁
  have hinv : StepInv c₁ layerId (seen ids) := h.stepInv_begun hl hids m n
  refine ⟨hinv, rfl, fun e he => ?_, fun s _ => ?_, fun s hs _ => if_pos hs, fun e _ => ?_⟩
  · obtain ⟨he, hnone⟩ := mem_missing.mp he
    exact ⟨mem_seen.mpr he, hnone⟩
  · show c₁.kernelUsage layerId ids s = if s < c₁.cacheSize ∧ c₁.usage s < c₁.step then c₁.usage s
      else int64Max
    rw [kernelUsage]
    by_cases hs : s < c₁.cacheSize
    · have howner : (ids.any fun e => c₁.laneOid s == c₁.flatId layerId e) = true ↔
          c₁.usage s = c₁.step := by
        rw [hinv.used_now s hs, any_eq_true, laneOid, if_pos hs]
        exact exists_congr fun e => by rw [mem_seen, beq_iff_eq]
      have hle := hinv.usage_le s hs
      by_cases hnow : c₁.usage s = c₁.step
      · rw [howner.mpr hnow, Bool.true_or, if_pos rfl, if_neg fun h => h.2.ne hnow]
      · have hfree : s < c₁.cacheSize ∧ c₁.usage s < c₁.step := ⟨hs, lt_of_le_of_ne hle hnow⟩
        rw [Bool.eq_false_iff.mpr (mt howner.mp hnow), Bool.false_or, decide_eq_true hs,
          Bool.not_true, if_neg Bool.false_ne_true, if_pos hs, if_pos hfree]
    · simp [hs]
  · show c.kernelScore layerId ids e = _
    rw [kernelScore]
    by_cases hm : e ∈ c.missing byRecency layerId (seen ids)
    · rw [if_pos ((isMissing_iff byRecency hids e).mpr hm), if_pos hm,
        if_pos (hids e (mem_missing.mp hm).1)]
    · rw [if_neg (mt (isMissing_iff byRecency hids e).mp hm), if_neg hm]

theorem kernel_fetched (byRecency : Bool) (maxFetch fracQ16 : ℤ) (h : c.Wf)
    (hl : layerId < c.numLayers) (hids : ∀ e ∈ ids, e < c.numExperts)
    (hE : c.numExperts ≤ blockE) (hC : c.cacheSize ≤ blockC) (h64 : c.step + 1 < int64Max)
    (h60 : (c.numExperts : ℤ) < 2 ^ 60) :
    ((range (c.kernelBegin blockE layerId ids maxFetch fracQ16).numIndices.toNat).foldl
      (kernelFetch byRecency blockE blockC layerId
        (c.kernelBegin blockE layerId ids maxFetch fracQ16).laneOid (c.isMissing layerId ids))
      ⟨c.kernelBegin blockE layerId ids maxFetch fracQ16,
        (c.kernelBegin blockE layerId ids maxFetch fracQ16).kernelUsage layerId ids,
        c.kernelScore layerId ids⟩).cache = c.fetched byRecency layerId ids maxFetch fracQ16 := by
  rw [kernelBegin_eq byRecency h hl hids hE, range_eq_range']
  have hn : (c.numFetched byRecency layerId ids maxFetch fracQ16).toNat ≤
      (c.missing byRecency layerId (seen ids)).length := by
    rw [numFetched]
    omega
  exact KernelInv.loop hE h60 h.recency_ge hl hids (isMissing_iff byRecency hids) [] rfl
    (h.kernelInv hl hids _ _) hC h64 hn

/-- **The kernel computes the reference.** -/
theorem ensureExpertsHybridKernel_eq (h : c.Wf) (hl : layerId < c.numLayers)
    (hids : ∀ e ∈ ids, e < c.numExperts) (hE : c.numExperts ≤ blockE) (hC : c.cacheSize ≤ blockC)
    (h64 : c.step + 1 < int64Max) (h60 : (c.numExperts : ℤ) < 2 ^ 60) :
    ensureExpertsHybridKernel byRecency blockE blockC c layerId ids maxFetch fracQ16 =
      ensureExpertsHybridCpu byRecency c layerId ids maxFetch fracQ16 := by
  have hrun := kernel_fetched byRecency maxFetch fracQ16 h hl hids hE hC h64 h60
  have hframe := (h.fetched hl hids byRecency maxFetch fracQ16).frame
  have hrec : laneStore blockE (fun e => isActive ids e && decide (e < c.numExperts))
      (c.flatId layerId) (fun _ => c.step + 1)
      (c.fetched byRecency layerId ids maxFetch fracQ16).expertRecency =
        indexFill (c.fetched byRecency layerId ids maxFetch fracQ16).expertRecency
          ((seen ids).map (c.flatId layerId))
          (c.fetched byRecency layerId ids maxFetch fracQ16).step := by
    ext i
    by_cases hi : ∃ e ∈ seen ids, c.flatId layerId e = i
    · obtain ⟨e, he, hei⟩ := hi
      have heids := mem_seen.mp he
      have hlt := hids e heids
      rw [indexFill_of_mem (mem_map.mpr ⟨e, he, hei⟩)]
      have hmask : (isActive ids e && decide (e < c.numExperts)) = true := by
        rw [Bool.and_eq_true, isActive_iff, decide_eq_true_eq]
        exact ⟨heids, hlt⟩
      refine laneStore_of_eq (i := e) (by omega) hmask hei fun _ _ _ _ => ?_
      rw [hframe]
      rfl
    · rw [indexFill_of_notMem (mt mem_map.mp hi)]
      apply laneStore_of_ne
      intro e _ hmask hei
      rw [Bool.and_eq_true, isActive_iff] at hmask
      exact hi ⟨e, mem_seen.mpr hmask.1, hei⟩
  rw [ensureExpertsHybridCpu_eq, ← hrec, ← hrun]
  cases byRecency <;> rfl

/-- The counters do not overflow in the next step: neither the share of the misses, in 32 bits, nor
the clock and the scores, in 64. -/
def InRange (c : OffloadMoeCache) : Prop :=
  (c.numExperts : ℤ) < 2 ^ 15 ∧ (c.step + 2) * (c.numExperts + 1) < int64Max

theorem Wf.step_lt (h : c.Wf) (hr : c.InRange) : c.step + 1 < int64Max := by
  have h₁ := h.step_nonneg
  have h₂ : (c.step + 2) * 1 ≤ (c.step + 2) * (c.numExperts + 1) :=
    mul_le_mul_of_nonneg_left (by omega) (by omega)
  have h₃ := hr.2
  omega

theorem le_nextPowerOf2 (n : ℕ) : n ≤ nextPowerOf2 n := Nat.le_pow_clog one_lt_two n

theorem ensureExpertsHybridGpu_eq (h : c.Wf) (hr : c.InRange) (hl : layerId < c.numLayers)
    (hids : ∀ e ∈ ids, e < c.numExperts) :
    ensureExpertsHybridGpu byRecency c layerId ids maxFetch fracQ16 =
      ensureExpertsHybridCpu byRecency c layerId ids maxFetch fracQ16 :=
  ensureExpertsHybridKernel_eq h hl hids (le_nextPowerOf2 _) (le_nextPowerOf2 _) (h.step_lt hr)
    (hr.1.trans (by decide))

end kernel

/-- **The kernel agrees with the reference**: from a cache in which no slot was used later than now,
both leave the same tables, copy lists and counters, and rewrite the experts to the same slots. -/
theorem hybridKernel_eq_reference (h : c.Wf) (hr : c.InRange) (hl : layerId < c.numLayers)
    (hids : ∀ e ∈ ids, e < c.numExperts) (byRecency : Bool) (maxFetch fracQ16 : ℤ) :
    ensureExpertsHybridGpu byRecency c layerId ids maxFetch fracQ16 =
      ensureExpertsHybridCpu byRecency c layerId ids maxFetch fracQ16 :=
  ensureExpertsHybridGpu_eq h hr hl hids

theorem hybridKernel_eq_reference_run :
    ensureExpertsHybridGpu true (create 1 2 2) 0 [1, 0, 1] 1 0 =
      ensureExpertsHybridCpu true (create 1 2 2) 0 [1, 0, 1] 1 0 := by
  have hwf : (create 1 2 2).Wf := by
    refine ⟨SlotMap.empty (fun _ _ => rfl) fun _ _ => rfl, le_rfl, fun _ _ => le_rfl, le_rfl,
      fun _ _ => le_rfl, fun _ _ => ?_⟩
    show (-1 : ℤ) ≤ 0
    omega
  exact hybridKernel_eq_reference hwf ⟨by decide, by decide⟩ (by decide) (by decide) true 1 0

/-- A cache of two slots: the first holds expert `0`, the second one is empty and its last use lies
in the future. -/
def futureUse : OffloadMoeCache :=
  { create 1 2 2 with
    slotForId := fun i => if i = 0 then 0 else -1
    idOfSlot := fun s => if s = 0 then 0 else -1
    usage := fun s => if s = 1 then 100 else 0 }

/-- The bijection alone is not enough: the reference evicts the routed expert `0`, which the kernel
never does. -/
theorem hybridKernel_ne_reference : ¬∀ (c : OffloadMoeCache) (layerId : ℕ) (ids : List ℕ)
    (maxFetch fracQ16 : ℤ), SlotMap c.slotForId c.idOfSlot c.totalIds c.cacheSize →
    c.numExperts ≤ c.cacheSize → layerId < c.numLayers → (∀ e ∈ ids, e < c.numExperts) →
    (ensureExpertsHybridGpu true c layerId ids maxFetch fracQ16).2 =
      (ensureExpertsHybridCpu true c layerId ids maxFetch fracQ16).2 := by
  intro hall
  have hslots : SlotMap futureUse.slotForId futureUse.idOfSlot futureUse.totalIds
      futureUse.cacheSize := ⟨by decide, by decide, by decide⟩
  have := hall futureUse 0 [0, 1] 2 0 hslots le_rfl (by decide) (by decide)
  exact absurd this (by decide)

/-! ### What a step guarantees -/

theorem Wf.ensured (h : c.Wf) (hl : layerId < c.numLayers) (hids : ∀ e ∈ ids, e < c.numExperts) :
    (ensureExpertsHybridCpu byRecency c layerId ids maxFetch fracQ16).1.Wf := by
  have hf := h.fetched hl hids byRecency maxFetch fracQ16
  obtain ⟨c', hc'⟩ : ∃ c', c' = c.fetched byRecency layerId ids maxFetch fracQ16 := ⟨_, rfl⟩
  rw [ensureExpertsHybridCpu_eq]
  rw [← hc'] at hf ⊢
  have hframe := hf.frame
  have hstep : c'.step = c.step + 1 := by rw [hframe]; rfl
  have hrec : c'.expertRecency = c.expertRecency := by rw [hframe]; rfl
  have htotal : c'.totalIds = c.totalIds := by rw [hframe]; rfl
  have h0 := h.step_nonneg
  have hge : ∀ i < c.totalIds, -1 ≤ c.expertRecency i ∧ c.expertRecency i ≤ c.step + 1 := by
    intro i hi
    have := h.recency_ge i hi
    have := h.recency_le i hi
    omega
  cases byRecency with
  | true =>
    have hfill : ∀ i < c'.totalIds,
        -1 ≤ indexFill c'.expertRecency ((seen ids).map (c.flatId layerId)) c'.step i ∧
          indexFill c'.expertRecency ((seen ids).map (c.flatId layerId)) c'.step i ≤ c'.step := by
      intro i hi
      rw [indexFill, hrec, hstep]
      have := hge i (htotal ▸ hi)
      split_ifs <;> omega
    exact ⟨hf.inv.slots, hf.inv.experts_le, hf.inv.usage_le, by show 0 ≤ c'.step; omega,
      fun i hi => (hfill i hi).1, fun i hi => (hfill i hi).2⟩
  | false =>
    refine ⟨hf.inv.slots, hf.inv.experts_le, hf.inv.usage_le, ?_, fun i hi => ?_, fun i hi => ?_⟩
    · show 0 ≤ c'.step
      omega
    · exact hrec ▸ (hge i (htotal ▸ hi)).1
    · exact hrec ▸ hstep ▸ (hge i (htotal ▸ hi)).2

/-- What an ensure step of `layerId` does to the cache `c`, when the routed experts `ids` are
rewritten to `out`. -/
structure Ensured (c c' : OffloadMoeCache) (byRecency : Bool) (layerId : ℕ) (ids : List ℕ)
    (maxFetch fracQ16 : ℤ) (out : List ℤ) : Prop where
  /-- An expert is rewritten to the slot that holds it, or to `-1` if it is an overflow miss. -/
  rewritten : List.Forall₂ (fun e o =>
    (∃ s < c'.cacheSize, o = (s : ℤ) ∧ c'.idOfSlot s = c.flatId layerId e) ∨
      o = -1 ∧ e ∈ (c.missing byRecency layerId (seen ids)).drop
        (c.numFetched byRecency layerId ids maxFetch fracQ16).toNat) ids out
  /-- No slot that holds a routed expert is evicted. -/
  kept : ∀ s < c.cacheSize, ∀ e ∈ ids, c.idOfSlot s = c.flatId layerId e →
    c'.idOfSlot s = c.flatId layerId e
  /-- The copy list names experts that get a slot in this step, with that slot. -/
  listed : ∀ k : ℕ, k < c'.numIndices → c.slotForId (c.flatId layerId (c'.srcIndices k)) = -1 ∧
    c'.slotForId (c.flatId layerId (c'.srcIndices k)) = c'.evictSlots k
  /-- It names no expert twice. -/
  listed_inj : ∀ j k : ℕ, j < c'.numIndices → k < c'.numIndices →
    c'.srcIndices j = c'.srcIndices k → j = k
  /-- It names every expert that gets a slot in this step. -/
  newly : ∀ i < c.totalIds, c.slotForId i = -1 → c'.slotForId i ≠ -1 →
    ∃ k : ℕ, k < c'.numIndices ∧ i = c.flatId layerId (c'.srcIndices k)

theorem Wf.ensured_fetched (h : c.Wf) (hl : layerId < c.numLayers)
    (hids : ∀ e ∈ ids, e < c.numExperts)
    (hc' : c' = c.fetched byRecency layerId ids maxFetch fracQ16) :
    Ensured c c' byRecency layerId ids maxFetch fracQ16
      (ids.map fun e => c'.slotForId (c.flatId layerId e)) := by
  have hf := h.fetched hl hids byRecency maxFetch fracQ16
  rw [← hc'] at hf
  obtain ⟨n, hn⟩ : ∃ n, n = (c.numFetched byRecency layerId ids maxFetch fracQ16).toNat := ⟨_, rfl⟩
  obtain ⟨ms, hms⟩ : ∃ ms, ms = c.missing byRecency layerId (seen ids) := ⟨_, rfl⟩
  rw [← hn, ← hms] at hf
  have hframe := hf.frame
  have htotal : c'.totalIds = c.totalIds := by rw [hframe]; rfl
  have hcap : c'.cacheSize = c.cacheSize := by rw [hframe]; rfl
  have hnum : c'.numIndices = c.numFetched byRecency layerId ids maxFetch fracQ16 := by rw [hframe]
  have hlen : (ms.take n).length = n := by
    rw [length_take, hms, hn, numFetched]
    omega
  have hlt : ∀ k : ℕ, k < c'.numIndices → k < (ms.take n).length := by
    intro k hk
    rw [hnum] at hk
    omega
  have hmem : ∀ e, e ∈ ms ↔ e ∈ ids ∧ c.slotForId (c.flatId layerId e) = -1 := by
    intro e
    rw [hms]
    exact mem_missing
  have hnd : ms.Nodup := hms ▸ nodup_missing
  have hlisted : ∀ k (hk : k < (ms.take n).length), c'.srcIndices k = (ms.take n)[k] ∧
      c'.slotForId (c.flatId layerId (ms.take n)[k]) = c'.evictSlots k := by
    intro k hk
    have := hf.listed k hk
    rwa [zero_add] at this
  refine ⟨?_, fun s hs e he hse => ?_, fun k hk => ?_, fun j k hj hk hjk => ?_,
    fun i hi hnone hsome => ?_⟩
  · rw [forall₂_map_right_iff, forall₂_same]
    intro e he
    have heE := flatId_lt hl (hids e he)
    by_cases hslot : c'.slotForId (c.flatId layerId e) = -1
    · refine Or.inr ⟨hslot, ?_⟩
      -- neither a hit nor fetched: it is past the cap
      have hnotin : e ∉ ms.take n := fun hin => by
        obtain ⟨k, hk, rfl⟩ := mem_iff_getElem.mp hin
        have := (hlisted k hk).2
        omega
      have hnone : c.slotForId (c.flatId layerId e) = -1 :=
        (hf.kept e (mem_seen.mpr he) hnotin).symm.trans hslot
      have hin : e ∈ ms.take n ++ ms.drop n := by
        rw [take_append_drop]
        exact (hmem e).mpr ⟨he, hnone⟩
      rw [← hms, ← hn]
      exact (mem_append.mp hin).resolve_left hnotin
    · obtain ⟨s, hs, hes, hse⟩ := hf.inv.slots.exists_slot (htotal ▸ heE) hslot
      exact Or.inl ⟨s, hs, hes, hse⟩
  · have heE := flatId_lt hl (hids e he)
    have hes := (h.slots.link _ heE s hs).mpr hse
    have hnotin : e ∉ ms.take n := fun hin => by
      have := ((hmem e).mp (mem_of_mem_take hin)).2
      omega
    have hkept := hf.kept e (mem_seen.mpr he) hnotin
    exact (hf.inv.slots.link _ (htotal ▸ heE) s (hcap ▸ hs)).mp (hkept.trans hes)
  · obtain ⟨hsrc, hslot⟩ := hlisted k (hlt k hk)
    rw [hsrc]
    exact ⟨((hmem _).mp (mem_of_mem_take (getElem_mem (hlt k hk)))).2, hslot⟩
  · rw [(hlisted j (hlt j hj)).1, (hlisted k (hlt k hk)).1] at hjk
    exact (hnd.sublist (take_sublist n ms)).getElem_inj_iff.mp hjk
  · by_contra hno
    have hother : ∀ e ∈ ms.take n, i ≠ c.flatId layerId e := by
      rintro e he rfl
      obtain ⟨k, hk, rfl⟩ := mem_iff_getElem.mp he
      refine hno ⟨k, ?_, congrArg _ (hlisted k hk).1.symm⟩
      rw [hnum]
      omega
    rcases hf.others i hother with hsame | hgone
    · exact hsome (hsame.trans hnone)
    · exact hsome hgone

theorem Wf.ensured_cpu (h : c.Wf) (hl : layerId < c.numLayers)
    (hids : ∀ e ∈ ids, e < c.numExperts) :
    Ensured c (ensureExpertsHybridCpu byRecency c layerId ids maxFetch fracQ16).1 byRecency layerId
      ids
      maxFetch fracQ16 (ensureExpertsHybridCpu byRecency c layerId ids maxFetch fracQ16).2 := by
  have hf := h.ensured_fetched hl hids (Eq.refl (c.fetched byRecency layerId ids maxFetch fracQ16))
  rw [ensureExpertsHybridCpu_eq]
  cases byRecency <;>
    exact ⟨hf.rewritten, hf.kept, hf.listed, hf.listed_inj, hf.newly⟩

/-! ### The other kernels -/

theorem Wf.create {numLayers numExperts cacheSize : ℕ} (h : numExperts ≤ cacheSize) :
    (create numLayers numExperts cacheSize).Wf where
  slots := SlotMap.empty (fun _ _ => rfl) fun _ _ => rfl
  experts_le := h
  usage_le _ _ := le_rfl
  step_nonneg := le_rfl
  recency_ge _ _ := le_rfl
  recency_le _ _ := by
    show (-1 : ℤ) ≤ 0
    omega

section materialize

variable {block i : ℕ}

/-- The slot holds an expert of the layer. -/
def SameLayer (c : OffloadMoeCache) (layerId s : ℕ) : Prop :=
  s < c.cacheSize ∧ ((layerId * c.numExperts : ℕ) : ℤ) ≤ c.idOfSlot s ∧
    c.idOfSlot s < (layerId * c.numExperts : ℕ) + c.numExperts

theorem materialize_idOfSlot_lt (hs : s < c.numExperts) (hE : c.numExperts ≤ block) :
    (materializeLayerKernel block c layerId).idOfSlot s = ((layerId * c.numExperts + s : ℕ) : ℤ) :=
  laneStore_id.trans (if_pos ⟨by omega, decide_eq_true hs⟩)

/-- The mask of the slots that hold an expert of the layer. -/
theorem sameLayer_iff (off : ℕ) : (decide (off < c.cacheSize) &&
    decide (((layerId * c.numExperts : ℕ) : ℤ) ≤
      if decide (off < c.cacheSize) then c.idOfSlot off else -1) &&
    decide ((if decide (off < c.cacheSize) then c.idOfSlot off else -1) <
      (layerId * c.numExperts : ℕ) + c.numExperts)) = true ↔ c.SameLayer layerId off := by
  simp only [Bool.and_eq_true, decide_eq_true_eq, SameLayer, and_assoc]
  refine and_congr_right fun hoff => ?_
  rw [if_pos hoff]

theorem materialize_idOfSlot (layerId : ℕ) (hs : ¬s < c.numExperts) (hC : c.cacheSize ≤ block) :
    (c.SameLayer layerId s → (materializeLayerKernel block c layerId).idOfSlot s = -1) ∧
      (¬c.SameLayer layerId s →
        (materializeLayerKernel block c layerId).idOfSlot s = c.idOfSlot s) := by
  have hskip : (materializeLayerKernel block c layerId).idOfSlot s =
      laneStore block _ id (fun _ => -1) c.idOfSlot s :=
    laneStore_id.trans (if_neg fun h => hs (of_decide_eq_true h.2))
  rw [hskip, laneStore_id]
  constructor
  · intro hsame
    have := hsame.1
    exact if_pos ⟨by omega, (sameLayer_iff s).mpr hsame⟩
  · intro hother
    exact if_neg fun h => hother ((sameLayer_iff s).mp h.2)

theorem materialize_slotForId_layer (hs : s < c.numExperts) (hE : c.numExperts ≤ block) :
    (materializeLayerKernel block c layerId).slotForId (layerId * c.numExperts + s) = s := by
  refine laneStore_of_eq (i := s) (by omega) (decide_eq_true hs) rfl fun j _ _ hj => ?_
  rw [add_left_cancel hj]

theorem materialize_slotForId (hi : ∀ s < c.numExperts, i ≠ layerId * c.numExperts + s)
    (hE : c.numExperts ≤ block) (hC : c.numExperts ≤ c.cacheSize) :
    ((∃ s < c.numExperts, c.idOfSlot s = i) →
        (materializeLayerKernel block c layerId).slotForId i = -1) ∧
      ((∀ s < c.numExperts, c.idOfSlot s ≠ i) →
        (materializeLayerKernel block c layerId).slotForId i = c.slotForId i) := by
  have hskip : ∀ t : ℕ → ℤ, laneStore block (fun off => decide (off < c.numExperts))
      (layerId * c.numExperts + ·) (fun off => (off : ℤ)) t i = t i := by
    refine fun t => laneStore_of_ne fun j _ hj hji => hi j ?_ hji.symm
    rwa [decide_eq_true_eq] at hj
  have hold : ∀ s < c.numExperts,
      (if decide (s < c.cacheSize) = true then c.idOfSlot s else -1) = c.idOfSlot s :=
    fun s hs => if_pos (decide_eq_true (by omega))
  constructor
  · rintro ⟨s, hs, hsi⟩
    refine (hskip _).trans (laneStore_of_eq (i := s) (by omega) ?_ ?_ fun _ _ _ _ => rfl)
    · rw [Bool.and_eq_true, Bool.and_eq_true, Bool.not_eq_true', decide_eq_true_eq]
      refine ⟨⟨hs, ?_⟩, ?_⟩
      · refine decide_eq_true (le_of_le_of_eq ?_ (hold s hs).symm)
        rw [hsi]
        exact Int.natCast_nonneg i
      · refine Bool.eq_false_iff.mpr (mt (sameLayer_iff s).mp fun hsame => ?_)
        obtain ⟨-, h₁, h₂⟩ := hsame
        rw [hsi] at h₁ h₂
        refine hi (i - layerId * c.numExperts) ?_ ?_ <;> omega
    · exact (congrArg Int.toNat ((hold s hs).trans hsi)).trans (Int.toNat_natCast i)
  · intro hno
    refine (hskip _).trans (laneStore_of_ne fun j _ hj hji => ?_)
    rw [Bool.and_eq_true, Bool.and_eq_true, decide_eq_true_eq, decide_eq_true_eq] at hj
    obtain ⟨⟨hjE, h0⟩, -⟩ := hj
    have hj₁ := (congrArg Int.toNat (hold j hjE)).symm.trans hji
    have hj₂ := le_of_le_of_eq h0 (hold j hjE)
    exact hno j hjE (by omega)

theorem materialize_usage_le (h : ∀ s < c.cacheSize, c.usage s ≤ c.step) (h0 : 0 ≤ c.step)
    (hs : s < c.cacheSize) : (materializeLayerKernel block c layerId).usage s ≤ c.step + 1 := by
  have hstore : ∀ (n : ℕ) (mask : ℕ → Bool) (v : ℤ) (t : ℕ → ℤ), v ≤ c.step + 1 →
      t s ≤ c.step + 1 → laneStore n mask id (fun _ => v) t s ≤ c.step + 1 := by
    intro n mask v t hv ht
    rw [laneStore_id]
    split_ifs
    exacts [hv, ht]
  have := h s hs
  exact hstore _ _ _ _ le_rfl (hstore _ _ _ _ (by omega) (by omega))

/-- The slots of the layer are the first ones, and the others keep the experts of other layers. -/
theorem Wf.slots_materialize (h : c.Wf) (hl : layerId < c.numLayers) (hE : c.numExperts ≤ block)
    (hC : c.cacheSize ≤ block) : SlotMap (materializeLayerKernel block c layerId).slotForId
      (materializeLayerKernel block c layerId).idOfSlot c.totalIds c.cacheSize := by
  have hEC := h.experts_le
  obtain ⟨base, hbase⟩ : ∃ b, b = layerId * c.numExperts := ⟨_, rfl⟩
  have hlayer : ∀ s < c.numExperts, base + s < c.totalIds := fun s hs => hbase ▸ flatId_lt hl hs
  obtain ⟨c', hc'⟩ : ∃ c', c' = materializeLayerKernel block c layerId := ⟨_, rfl⟩
  rw [← hc']
  have hid_lt : ∀ s < c.numExperts, c'.idOfSlot s = ((base + s : ℕ) : ℤ) := fun s hs => by
    rw [hc', hbase]
    exact materialize_idOfSlot_lt hs hE
  -- a slot past the layer's keeps what it holds, unless that is an expert of the layer
  have hid : ∀ s, ¬s < c.numExperts → s < c.cacheSize →
      c'.idOfSlot s = -1 ∧ (∃ t < c.numExperts, c.idOfSlot s = ((base + t : ℕ) : ℤ)) ∨
        c'.idOfSlot s = c.idOfSlot s ∧ ∀ t < c.numExperts, c.idOfSlot s ≠ ((base + t : ℕ) : ℤ) := by
    intro s hs hsC
    obtain ⟨h₁, h₂⟩ := materialize_idOfSlot layerId hs hC
    rw [← hc'] at h₁ h₂
    by_cases hsame : c.SameLayer layerId s
    · refine Or.inl ⟨h₁ hsame, (c.idOfSlot s).toNat - base, ?_⟩
      obtain ⟨-, hge, hlt⟩ := hsame
      omega
    · refine Or.inr ⟨h₂ hsame, fun t ht hst => hsame ⟨hsC, ?_⟩⟩
      omega
  have hslot_layer : ∀ s < c.numExperts, c'.slotForId (base + s) = s := fun s hs => by
    rw [hc', hbase]
    exact materialize_slotForId_layer hs hE
  -- an expert of another layer keeps its slot, unless the layer takes it
  have hslot : ∀ i < c.totalIds, (∀ s < c.numExperts, i ≠ base + s) →
      c'.slotForId i = -1 ∧ (∃ s < c.numExperts, c.slotForId i = s) ∨
        c'.slotForId i = c.slotForId i ∧ ∀ s < c.numExperts, c.slotForId i ≠ s := by
    intro i hi hne
    obtain ⟨h₁, h₂⟩ := materialize_slotForId (c := c) (hbase ▸ hne) hE hEC
    rw [← hc'] at h₁ h₂
    by_cases htaken : ∃ s < c.numExperts, c.idOfSlot s = i
    · obtain ⟨s, hs, hsi⟩ := htaken
      exact Or.inl ⟨h₁ ⟨s, hs, hsi⟩, s, hs, (h.slots.link i hi s (by omega)).mpr hsi⟩
    · have hno : ∀ s < c.numExperts, c.idOfSlot s ≠ i := fun s hs hsi => htaken ⟨s, hs, hsi⟩
      exact Or.inr ⟨h₂ hno, fun s hs his => hno s hs ((h.slots.link i hi s (by omega)).mp his)⟩
  refine ⟨fun i hi => ?_, fun s hs => ?_, fun i hi s hs => ?_⟩
  · by_cases hin : ∃ s < c.numExperts, i = base + s
    · obtain ⟨s, hs, rfl⟩ := hin
      rw [hslot_layer s hs]
      omega
    · rcases hslot i hi fun s hs his => hin ⟨s, hs, his⟩ with ⟨hneg, -⟩ | ⟨hsame, -⟩
      · exact Or.inl hneg
      · exact hsame ▸ h.slots.fwd_range i hi
  · by_cases hsE : s < c.numExperts
    · have := hlayer s hsE
      rw [hid_lt s hsE]
      omega
    · rcases hid s hsE hs with ⟨hneg, -⟩ | ⟨hsame, -⟩
      · exact Or.inl hneg
      · exact hsame ▸ h.slots.bwd_range s hs
  · have hlink := h.slots.link i hi s hs
    by_cases hin : ∃ t < c.numExperts, i = base + t
    · obtain ⟨t, ht, rfl⟩ := hin
      rw [hslot_layer t ht]
      by_cases hsE : s < c.numExperts
      · rw [hid_lt s hsE]
        omega
      · rcases hid s hsE hs with ⟨hneg, -⟩ | ⟨hsame, hno⟩
        · rw [hneg]
          omega
        · have := hno t ht
          rw [hsame]
          omega
    · have hne : ∀ t < c.numExperts, i ≠ base + t := fun t ht hit => hin ⟨t, ht, hit⟩
      by_cases hsE : s < c.numExperts
      · have := hne s hsE
        rw [hid_lt s hsE]
        rcases hslot i hi hne with ⟨hneg, -⟩ | ⟨hsame, hno⟩
        · omega
        · have := hno s hsE
          omega
      · rcases hslot i hi hne with ⟨hneg, t, ht, hit⟩ | ⟨hsame, -⟩ <;>
          rcases hid s hsE hs with ⟨hneg', t', ht', hst'⟩ | ⟨hsame', -⟩
        · omega
        · omega
        · have := hne t' ht'
          omega
        · omega

theorem Wf.materializeLayer (h : c.Wf) (hl : layerId < c.numLayers) :
    (c.materializeLayer layerId).Wf := by
  obtain ⟨block, hblock⟩ : ∃ b, b = nextPowerOf2 (max c.numExperts c.cacheSize) := ⟨_, rfl⟩
  have hle := le_nextPowerOf2 (max c.numExperts c.cacheSize)
  rw [← hblock] at hle
  have hE : c.numExperts ≤ block := by omega
  have hC : c.cacheSize ≤ block := by omega
  rw [OffloadMoeCache.materializeLayer, ← hblock]
  refine ⟨h.slots_materialize hl hE hC, h.experts_le,
    fun s hs => materialize_usage_le h.usage_le h.step_nonneg hs, ?_, h.recency_ge, fun i hi => ?_⟩
  · have := h.step_nonneg
    show 0 ≤ c.step + 1
    omega
  · have := h.recency_le i hi
    show c.expertRecency i ≤ c.step + 1
    omega

end materialize

theorem Wf.reset (h : c.Wf) : c.reset.Wf := by
  have hgrid : c.totalIds ≤ (max c.totalIds c.cacheSize + 255) / 256 * 256 ∧
      c.cacheSize ≤ (max c.totalIds c.cacheSize + 255) / 256 * 256 := by omega
  refine ⟨SlotMap.empty (fun i hi => ?_) (fun s hs => ?_), h.experts_le, fun s hs => ?_, le_rfl,
    fun _ _ => le_rfl, fun _ _ => ?_⟩
  · exact laneStore_id.trans (if_pos ⟨hi.trans_le hgrid.1, decide_eq_true hi⟩)
  · exact laneStore_id.trans (if_pos ⟨hs.trans_le hgrid.2, decide_eq_true hs⟩)
  · exact (laneStore_id.trans (if_pos ⟨hs.trans_le hgrid.2, decide_eq_true hs⟩)).le
  · show (-1 : ℤ) ≤ 0
    omega

end OffloadMoeCache

end FreeToken
