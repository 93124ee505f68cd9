import FreeToken.Engine.RuntimeCache
import Mathlib.Data.Set.Function
import Mathlib.Data.Int.Cast.Lemmas

/-!
# The window allocator of the hybrid pool, and what a resize of the pools leaves behind

* `HybridSWAKVCache.Inv`: the free window slots, the mapped ones and the lost ones are all the
  window slots, without repetition.  A slot is lost when `alloc_swa` overwrites it in the map.
* `allocSwa_spec`, `freeSwa_spec`: the two operations keep it.
* `hybridSwaPool_partitions`: what holds after every sequence of calls.
* `keeps_linear`, `keeps_hybrid`, `keeps_slabs`, `keeps_dsv4`, `keeps_moe`: a resize that is not
  struck leaves a whole pool of the new size.  One that is struck leaves a pool from which the same
  code succeeds, unless it was struck while the tensors were dropped whose shapes it reads
  (`Point.losesStates`, `Point.losesGroups`).
-/

namespace FreeToken

open Function List

namespace HybridSWAKVCache

variable {c c' : HybridSWAKVCache} {lost : List ℤ} {is : List ℕ} {i : ℕ}

/-- The live window slots that back the given full slots. -/
def liveOf (c : HybridSWAKVCache) (is : List ℕ) : List ℤ :=
  (is.map c.fullToSwaIndexMapping).filter (0 < ·)

def mapped (c : HybridSWAKVCache) : List ℤ := c.liveOf c.fullSlots

structure Inv (c : HybridSWAKVCache) (lost : List ℤ) : Prop where
  nonneg : ∀ i ∈ c.fullSlots, 0 ≤ c.fullToSwaIndexMapping i
  partition : (c.swaFree ++ c.mapped ++ lost).Perm c.windowSlots

/-! ### The window slots -/

theorem nodup_windowSlots : c.windowSlots.Nodup :=
  List.Nodup.map Nat.cast_injective nodup_range'

theorem pos_of_mem_windowSlots {w : ℤ} (h : w ∈ c.windowSlots) : 0 < w := by
  obtain ⟨n, hn, rfl⟩ := mem_map.mp h
  have := left_le_of_mem_range' hn
  omega

theorem liveOf_perm {is js : List ℕ} (h : is.Perm js) : (c.liveOf is).Perm (c.liveOf js) :=
  (h.map _).filter _

theorem liveOf_append (is js : List ℕ) : c.liveOf (is ++ js) = c.liveOf is ++ c.liveOf js := by
  rw [liveOf, map_append, filter_append]
  rfl

/-! ### The two operations -/

theorem inv_initSwaPagedState (full swa ps : ℕ) : (initSwaPagedState full swa ps).Inv [] := by
  have hzero : ∀ i ∈ (initSwaPagedState full swa ps).fullSlots,
      (initSwaPagedState full swa ps).fullToSwaIndexMapping i = 0 :=
    fun i hi => if_pos (List.mem_range.mp hi)
  refine ⟨fun i hi => (hzero i hi).ge, ?_⟩
  have hm : (initSwaPagedState full swa ps).mapped = [] := by
    rw [mapped, liveOf, filter_eq_nil_iff]
    intro w hw
    obtain ⟨i, hi, rfl⟩ := mem_map.mp hw
    rw [hzero i hi]
    decide
  rw [hm, append_nil, append_nil]
  rfl

/-- The window slots that `alloc_swa` overwrites, or hands to a full slot that gets another one. -/
def overwritten (c : HybridSWAKVCache) (is : List ℕ) (c' : HybridSWAKVCache) : List ℤ :=
  (c.mapped ++ c.swaFree.take is.length).filter (· ∉ c'.mapped)

/-- What is mapped after `alloc_swa`: the slots of the last writes, and what the other full slots
had. -/
theorem mapped_allocSwa (h : c.Inv lost) (hs : is ⊆ c.fullSlots)
    (hlen : is.length ≤ c.swaFree.length) (hc' : c' = { c with
      swaFree := c.swaFree.drop is.length
      fullToSwaIndexMapping := indexPut c.fullToSwaIndexMapping is (c.swaFree.take is.length) }) :
    ∃ is' vs rest, is'.Nodup ∧ is'.Sublist is ∧ is ⊆ is' ∧ is'.length = vs.length ∧
      vs.Sublist (c.swaFree.take is.length) ∧ c'.mapped.Perm (vs ++ c.liveOf rest) ∧
      c.mapped.Perm (c.liveOf is' ++ c.liveOf rest) ∧ ∀ i ∈ is, 0 < c'.fullToSwaIndexMapping i := by
  have hl : is.length = (c.swaFree.take is.length).length := by
    rw [length_take]
    omega
  have hpos : ∀ w ∈ c.swaFree, 0 < w := fun w hw =>
    pos_of_mem_windowSlots (h.partition.subset (mem_append_left _ (mem_append_left _ hw)))
  obtain ⟨is', vs, hn, hsub, hmem, hvs, hlen', hput⟩ :=
    exists_nodup_indexPut c.fullToSwaIndexMapping hl
  obtain ⟨rest, hrest⟩ := exists_rest hn (List.Subset.trans hsub.subset hs)
  refine ⟨is', vs, rest, hn, hsub, hmem, hlen', hvs, ?_, ?_, fun i hi => ?_⟩
  · have hnew :=
      (perm_map_indexPut (t := c.fullToSwaIndexMapping) hrest nodup_range hlen').filter (0 < ·)
    rw [filter_append, filter_eq_self.mpr fun w hw =>
      decide_eq_true (hpos w (mem_of_mem_take (hvs.subset hw))), ← hput] at hnew
    rw [hc']
    exact hnew
  · rw [← liveOf_append]
    exact liveOf_perm hrest
  · rw [hc']
    exact hpos _ (mem_of_mem_take (indexPut_mem hl hi))

theorem perm_append_filter_notMem {l l' : List ℤ} (hl : l.Nodup) (hl' : l'.Nodup) (hsub : l' ⊆ l) :
    l.Perm (l' ++ l.filter (· ∉ l')) := by
  refine (perm_ext_iff_of_nodup hl ?_).mpr fun w => ?_
  · refine nodup_append'.mpr ⟨hl', hl.filter _, fun w hw hw' => ?_⟩
    exact of_decide_eq_true (mem_filter.mp hw').2 hw
  · rw [mem_append, mem_filter, decide_eq_true_eq]
    exact ⟨fun hw => (Classical.em (w ∈ l')).imp id fun hnot => ⟨hw, hnot⟩, fun hw =>
      hw.elim (@hsub w) And.left⟩

/-- **What `alloc_swa` does**: every given full slot has a window slot, and the slots that are
overwritten are lost.  None are if the full slots are distinct and have none yet. -/
theorem allocSwa_spec (h : c.Inv lost) (hs : is ⊆ c.fullSlots) (ha : c.allocSwa is = some c') :
    c'.Inv (lost ++ c.overwritten is c') ∧ (∀ i ∈ is, 0 < c'.fullToSwaIndexMapping i) ∧
      (c.overwritten is c' = [] ↔ is.Nodup ∧ ∀ i ∈ is, c.fullToSwaIndexMapping i = 0) := by
  unfold allocSwa at ha
  dsimp only at ha
  split_ifs at ha with h0 hlen
  · obtain rfl := Option.some.inj ha
    obtain rfl := length_eq_zero_iff.mp h0
    have hnil : c.overwritten [] c = [] := by
      rw [overwritten, length_nil, take_zero, append_nil, filter_eq_nil_iff]
      exact fun w hw => by simp [hw]
    rw [hnil, append_nil]
    exact ⟨h, by simp, by simp⟩
  · obtain ⟨is', vs, rest, hn, hsub, hmem, hlen', hvs, hnew, hold, hget⟩ :=
      mapped_allocSwa h hs (Nat.le_of_not_lt hlen) (Option.some.inj ha).symm
    have hfree : c'.swaFree = c.swaFree.drop is.length := by rw [← Option.some.inj ha]
    have hslots : c'.fullSlots = c.fullSlots ∧ c'.windowSlots = c.windowSlots := by
      rw [← Option.some.inj ha]
      exact ⟨rfl, rfl⟩
    -- the slots in use and those taken from the free list, without repetition
    have hsplit : (c.swaFree.drop is.length ++ (c.mapped ++ c.swaFree.take is.length) ++ lost).Perm
        c.windowSlots := by
      refine List.Perm.trans ?_ h.partition
      rw [perm_iff_count]
      intro w
      have htake := congrArg (List.count w) (take_append_drop is.length c.swaFree)
      simp only [count_append] at htake ⊢
      omega
    have hused : (c.mapped ++ c.swaFree.take is.length).Nodup :=
      (nodup_append.mp (nodup_append.mp (hsplit.nodup_iff.mpr nodup_windowSlots)).1).2.1
    have hboth : (c.liveOf is' ++ c.liveOf rest ++ c.swaFree.take is.length).Nodup :=
      (hold.append_right _).nodup_iff.mp hused
    have hnew' : c'.mapped.Nodup ∧ c'.mapped ⊆ c.mapped ++ c.swaFree.take is.length := by
      have hsubl :
          (c.liveOf rest ++ vs).Sublist
          (c.liveOf is' ++ c.liveOf rest ++ c.swaFree.take is.length) := by
        rw [append_assoc]
        exact ((List.Sublist.refl _).append hvs).trans (sublist_append_right _ _)
      have hperm := hnew.trans perm_append_comm
      exact ⟨hperm.nodup_iff.mpr (hboth.sublist hsubl), List.Subset.trans hperm.subset
        (List.Subset.trans hsubl.subset (hold.symm.append_right _).subset)⟩
    have hpart := perm_append_filter_notMem hused hnew'.1 hnew'.2
    refine ⟨⟨fun i hi => ?_, ?_⟩, hget, ?_⟩
    · by_cases him : i ∈ is
      · exact (hget i him).le
      · rw [← Option.some.inj ha]
        show 0 ≤ indexPut c.fullToSwaIndexMapping is (c.swaFree.take is.length) i
        rw [indexPut_of_notMem him]
        exact h.nonneg i (hslots.1 ▸ hi)
    · rw [hfree, hslots.2]
      refine List.Perm.trans ?_ hsplit
      rw [perm_iff_count] at hpart ⊢
      intro w
      have hw := hpart w
      unfold overwritten
      simp only [count_append] at hw ⊢
      omega
    · have hcount := hpart.length_eq
      have hlens := hnew.length_eq
      have holds := hold.length_eq
      simp only [length_append, length_take] at hcount hlens holds
      have hnil : c.overwritten is c' = [] ↔ is'.length = is.length ∧ c.liveOf is' = [] := by
        have hle := hsub.length_le
        rw [← length_eq_zero_iff, ← length_eq_zero_iff, overwritten]
        omega
      rw [hnil]
      have hlive : c.liveOf is' = [] ↔ ∀ i ∈ is, c.fullToSwaIndexMapping i = 0 := by
        rw [liveOf, filter_eq_nil_iff]
        constructor
        · intro hzero i hi
          have := h.nonneg i (hs hi)
          have := hzero _ (mem_map_of_mem (hmem hi))
          simp only [decide_eq_true_eq] at this
          omega
        · intro hzero w hw
          obtain ⟨i, hi, rfl⟩ := mem_map.mp hw
          rw [hzero i (hsub.subset hi)]
          decide
      rw [hlive]
      refine and_congr_left fun _ => ⟨fun heq => hsub.eq_of_length heq ▸ hn, fun hnd => ?_⟩
      exact le_antisymm hsub.length_le (hnd.subperm hmem).length_le

/-- The given full slots that have a window slot. -/
def liveSlots (c : HybridSWAKVCache) (is : List ℕ) : List ℕ :=
  is.filter fun i => c.fullToSwaIndexMapping i ≠ 0

theorem freeSwa_inv (h : c.Inv lost) (hn : is.Nodup) (hs : is ⊆ c.fullSlots) :
    (c.freeSwa is).Inv lost := by
  unfold freeSwa
  split_ifs with h0
  · exact h
  · refine ⟨fun i hi => ?_, ?_⟩
    · show 0 ≤ indexFill c.fullToSwaIndexMapping is 0 i
      by_cases him : i ∈ is
      · exact (indexFill_of_mem him).ge
      · rw [indexFill_of_notMem him]
        exact h.nonneg i hi
    · obtain ⟨rest, hrest⟩ := exists_rest hn hs
      have hnew := (perm_map_indexFill (t := c.fullToSwaIndexMapping) (v := 0) hrest
        nodup_range).filter (0 < ·)
      rw [filter_append, filter_replicate] at hnew
      have hold := liveOf_perm (c := c) hrest
      rw [liveOf_append] at hold
      apply List.Perm.trans _ h.partition
      rw [perm_iff_count] at hnew hold ⊢
      intro w
      have h₁ := hnew w
      have h₂ := hold w
      simp only [count_append, mapped, liveOf, lt_irrefl, decide_false, Bool.false_eq_true,
        if_false, count_nil, zero_add] at h₁ h₂ ⊢
      simp only [fullSlots] at h₁ h₂ ⊢
      omega

/-- A released full slot changes nothing: `free_swa` only acts on the slots that have a window
slot. -/
theorem freeSwa_filter (h : c.Inv lost) (hs : is ⊆ c.fullSlots) :
    c.freeSwa (c.liveSlots is) = c.freeSwa is := by
  unfold liveSlots
  have hswa : c.liveOf (is.filter fun i => c.fullToSwaIndexMapping i ≠ 0) = c.liveOf is := by
    simp only [liveOf, filter_map, filter_filter]
    congr 1
    apply filter_congr
    intro i hi
    have := h.nonneg i (hs hi)
    simp only [comp_apply, ← Bool.decide_and, decide_eq_decide]
    omega
  have hmap : indexFill c.fullToSwaIndexMapping
      (is.filter fun i => c.fullToSwaIndexMapping i ≠ 0) 0 =
        indexFill c.fullToSwaIndexMapping is 0 := by
    ext i
    unfold indexFill
    by_cases hi : i ∈ is
    · by_cases h0 : c.fullToSwaIndexMapping i = 0 <;> simp [hi, h0]
    · simp [hi]
  unfold liveOf at hswa
  unfold freeSwa
  dsimp only
  rw [hswa, hmap]
  by_cases hl : is.length = 0
  · rw [length_eq_zero_iff.mp hl]
    rfl
  · rw [if_neg hl]
    split_ifs with hf
    · -- every slot is released: nothing is appended, and zeros overwrite zeros
      have hnil := length_eq_zero_iff.mp hf
      rw [hnil] at hswa hmap
      rw [← hswa, ← hmap]
      have : indexFill c.fullToSwaIndexMapping [] 0 = c.fullToSwaIndexMapping := by
        ext i
        exact indexFill_of_notMem not_mem_nil
      rw [this, map_nil, filter_nil, append_nil]
    · rfl

/-- **What `free_swa` does**: the window slots of distinct full slots are free, whatever else is
released again. -/
theorem freeSwa_spec (h : c.Inv lost) (hn : (c.liveSlots is).Nodup) (hs : is ⊆ c.fullSlots) :
    (c.freeSwa is).Inv lost := by
  rw [← freeSwa_filter h hs]
  exact freeSwa_inv h hn (List.Subset.trans (filter_subset_self is) hs)

/-- A full slot that is named twice in one call puts its window slot on the free list twice. -/
theorem nodup_swaFree_freeSwa_iff (h : c.Inv lost) (hs : is ⊆ c.fullSlots) :
    (c.freeSwa is).swaFree.Nodup ↔ (c.liveSlots is).Nodup := by
  constructor
  · intro hn
    unfold freeSwa at hn
    dsimp only at hn
    split_ifs at hn with h0
    · rw [length_eq_zero_iff.mp h0]
      exact .nil
    · have hlive : (is.map c.fullToSwaIndexMapping).filter (0 < ·) =
          (c.liveSlots is).map c.fullToSwaIndexMapping := by
        rw [liveSlots, filter_map]
        congr 1
        refine filter_congr fun i hi => ?_
        have := h.nonneg i (hs hi)
        simp only [comp_apply, decide_eq_decide]
        omega
      rw [hlive] at hn
      exact (nodup_append.mp hn).2.1.of_map _
  · intro hn
    have hpart := (freeSwa_spec h hn hs).partition
    have hnd := hpart.nodup_iff.mpr nodup_windowSlots
    exact (nodup_append.mp (nodup_append.mp hnd).1).1

theorem Inv.injOn (h : c.Inv lost) :
    Set.InjOn c.fullToSwaIndexMapping
      {i | i ∈ c.fullSlots ∧ c.fullToSwaIndexMapping i ≠ 0} := by
  have hn : c.mapped.Nodup := by
    have := h.partition.nodup_iff.mpr nodup_windowSlots
    exact (nodup_append.mp (nodup_append.mp this).1).2.1
  rw [mapped, liveOf, filter_map] at hn
  rintro i ⟨hi, hi0⟩ j ⟨hj, hj0⟩ hij
  refine inj_on_of_nodup_map hn ?_ ?_ hij
  · have := h.nonneg i hi
    exact mem_filter.mpr ⟨hi, by simp only [comp_apply, decide_eq_true_eq]; omega⟩
  · have := h.nonneg j hj
    exact mem_filter.mpr ⟨hj, by simp only [comp_apply, decide_eq_true_eq]; omega⟩

end HybridSWAKVCache

open HybridSWAKVCache

/-- The pool after a sequence of calls, with the window slots that `alloc_swa` has overwritten.  No
call of `free_swa` names a full slot twice that has a window slot. -/
inductive SwaPoolRun : HybridSWAKVCache → List ℤ → Prop
  | create (numFullPages pageSize : ℕ) (numSwaTokens : Option ℕ) :
      SwaPoolRun (create numFullPages pageSize numSwaTokens) []
  | rebuild {c : HybridSWAKVCache} {lost : List ℤ} (h : SwaPoolRun c lost) (numFullPages : ℕ)
      (numSwaTokens : Option ℕ) : SwaPoolRun (c.rebuild numFullPages numSwaTokens) []
  | allocSwa {c c' : HybridSWAKVCache} {lost : List ℤ} (h : SwaPoolRun c lost) (is : List ℕ)
      (hs : is ⊆ c.fullSlots) (ha : c.allocSwa is = some c') :
      SwaPoolRun c' (lost ++ c.overwritten is c')
  | freeSwa {c : HybridSWAKVCache} {lost : List ℤ} (h : SwaPoolRun c lost) (is : List ℕ)
      (hn : (c.liveSlots is).Nodup) (hs : is ⊆ c.fullSlots) : SwaPoolRun (c.freeSwa is) lost

variable {c : HybridSWAKVCache} {lost : List ℤ}

theorem SwaPoolRun.inv (h : SwaPoolRun c lost) : c.Inv lost := by
  induction h with
  | create numFullPages pageSize numSwaTokens => exact inv_initSwaPagedState _ _ _
  | rebuild _ numFullPages numSwaTokens => exact inv_initSwaPagedState _ _ _
  | allocSwa _ is hs ha ih => exact (allocSwa_spec ih hs ha).1
  | freeSwa _ is hn hs ih => exact freeSwa_spec ih hn hs

/-- A full slot that is handed to `alloc_swa` twice, in two calls or in one, keeps only its last
window slot: the first is neither free nor mapped.  One that is handed to `free_swa` twice in one
call frees its window slot twice. -/
theorem hybridSwaPool_remap_loses_slot :
    (∃ c c' lost, SwaPoolRun c [] ∧ c.allocSwa [0] = some c' ∧ SwaPoolRun c' lost ∧
      ¬(c'.swaFree ++ c'.mapped).Perm c'.windowSlots) ∧
    (∃ c c' lost, SwaPoolRun c [] ∧ c.allocSwa [0, 0] = some c' ∧ SwaPoolRun c' lost ∧
      ¬(c'.swaFree ++ c'.mapped).Perm c'.windowSlots) ∧
    ∃ c, SwaPoolRun c [] ∧ ¬(c.freeSwa [0, 0]).swaFree.Nodup := by
  have h₀ := SwaPoolRun.create 2 1 (some 3)
  have h₁ := h₀.allocSwa [0] (by decide) rfl
  exact ⟨⟨_, _, _, h₁, rfl, h₁.allocSwa [0] (by decide) rfl, by decide⟩,
    ⟨_, _, _, h₀, rfl, h₀.allocSwa [0, 0] (by decide) rfl, by decide⟩, _, h₁, by decide⟩

/-- **The window allocator**: after every sequence of calls the map is injective where it has window
slots; the free, the mapped and the lost slots are all the window slots without repetition, so that
free and mapped alone are all of them exactly when `alloc_swa` has overwritten none, which is when
its full slots are distinct and have none yet; the sentinel is never handed out; releasing a
released slot changes nothing; and a release keeps the free list without repetition exactly when it
names no full slot twice that has a window slot. -/
theorem hybridSwaPool_partitions (h : SwaPoolRun c lost) :
    Set.InjOn c.fullToSwaIndexMapping {i | i ∈ c.fullSlots ∧ c.fullToSwaIndexMapping i ≠ 0} ∧
      (c.swaFree ++ c.mapped).Nodup ∧ c.swaFree.Disjoint c.mapped ∧
      (c.swaFree ++ c.mapped ++ lost).Perm c.windowSlots ∧
      ((c.swaFree ++ c.mapped).Perm c.windowSlots ↔ lost = []) ∧
      0 ∉ c.swaFree ∧
      (∀ is c', is ⊆ c.fullSlots → c.allocSwa is = some c' →
        (∀ i ∈ is, 0 < c'.fullToSwaIndexMapping i) ∧
        (c.overwritten is c' = [] ↔ is.Nodup ∧ ∀ i ∈ is, c.fullToSwaIndexMapping i = 0)) ∧
      (∀ is, is ⊆ c.fullSlots → c.freeSwa (c.liveSlots is) = c.freeSwa is ∧
        ((∀ i ∈ is, c.fullToSwaIndexMapping i = 0) → c.freeSwa is = c)) ∧
      ∀ is, is ⊆ c.fullSlots → ((c.freeSwa is).swaFree.Nodup ↔ (c.liveSlots is).Nodup) := by
  have hinv := h.inv
  have hnd := hinv.partition.nodup_iff.mpr nodup_windowSlots
  have hn := (nodup_append.mp hnd).1
  refine ⟨hinv.injOn, hn, disjoint_of_nodup_append hn, hinv.partition, ⟨fun hp => ?_, ?_⟩,
    ?_, fun is c' hs ha => (allocSwa_spec hinv hs ha).2, fun is hs =>
    ⟨freeSwa_filter hinv hs, fun h0 => ?_⟩, fun is hs => nodup_swaFree_freeSwa_iff hinv hs⟩
  · have h₁ := hinv.partition.length_eq
    rw [length_append, hp.length_eq] at h₁
    exact length_eq_zero_iff.mp (by omega)
  · rintro rfl
    have hp := hinv.partition
    rwa [append_nil] at hp
  · intro h0
    have := pos_of_mem_windowSlots
      (hinv.partition.subset (mem_append_left _ (mem_append_left _ h0)))
    exact lt_irrefl _ this
  · rw [← freeSwa_filter hinv hs, liveSlots, filter_eq_nil_iff.mpr fun i hi => by simp [h0 i hi]]
    rfl

/-- A run that allocates, frees and frees again. -/
theorem hybridSwaPool_partitions_run : ∃ c, SwaPoolRun c [] ∧
    (c.swaFree ++ c.mapped).Perm c.windowSlots ∧ c.mapped ≠ [] := by
  have h₁ := SwaPoolRun.allocSwa (.create 2 1 (some 4)) [0, 1] (by decide) rfl
  have h₂ := h₁.freeSwa [0] (by decide) (by decide)
  have h₃ := h₂.freeSwa [0, 2, 0] (by decide) (by decide)
  exact ⟨_, h₃, (hybridSwaPool_partitions h₃).2.2.2.2.1.mpr rfl, by decide⟩

end FreeToken

namespace FreeToken.CacheRebuild

open Faulting

/-- The points where the old state tensors are gone and their shapes with them. -/
def Point.losesStates : Point → Bool
  | .linearSync | .linearConv | .linearRecurrent => true
  | _ => false

/-- The points where the old tensors of the hybrid pool are gone. -/
def Point.losesGroups : Point → Bool
  | .hybridSync | .hybridFull | .hybridSwa => true
  | _ => false

section

variable {σ α : Type} {P : σ → Prop} {X : Point → σ → Prop}

theorem keeps_step {p : Point} (h : ∀ s, P s → X p s) :
    Keeps P (step p : Prog σ Unit) (fun _ => P) X := Keeps.point h

theorem shapeOf_bind {τ : Type} {t : Option τ} {shape : τ} (h : t = some shape) (k : τ → Prog σ α) :
    (shapeOf t >>= k) = k shape := by
  subst h
  rfl

theorem keeps_step_bind {p : Point} {k : Unit → Prog σ α} {R : α → σ → Prop} (h : ∀ s, P s → X p s)
    (hk : Keeps P (k ()) R X) :
    Keeps P (step p >>= k) R X := Keeps.point_bind h hk

/-- A step, and then what is stored. -/
theorem keeps_step_modify {p : Point} {g : σ → σ} {Q : σ → Prop} (hX : ∀ s, P s → X p s)
    (hQ : ∀ s, P s → Q (g s)) :
    Keeps P (do step p; Faulting.modify g : Prog σ Unit) (fun _ => Q) X :=
      keeps_step_bind hX (Keeps.modify hQ)

end

/-! ### The recurrent state pool -/

variable {c : Config} {n : ℕ}

/-- The shapes can be read off the tensors. -/
structure LinearStatePool.Shaped (c : Config) (pool : LinearStatePool) : Prop where
  conv : ∃ n, pool.convStates = some (c.conv n)
  recurrent : ∃ n, pool.recurrentStates = some (c.recurrent n)

/-- All tensors are there, with one size. -/
structure LinearStatePool.Whole (c : Config) (pool : LinearStatePool) : Prop where
  conv : pool.convStates = some (c.conv pool.numSlots)
  recurrent : pool.recurrentStates = some (c.recurrent pool.numSlots)
  slotStates : ∀ i < pool.numSpecs, pool.slotStates i = some pool.numSlots

theorem LinearStatePool.Whole.shaped {pool : LinearStatePool} (h : pool.Whole c) : pool.Shaped c :=
  ⟨⟨_, h.conv⟩, ⟨_, h.recurrent⟩⟩

theorem keeps_linear (n : ℕ) :
    Keeps (LinearStatePool.Shaped c) (LinearStatePool.rebuild n)
      (fun _ pool => pool.Whole c ∧ pool.numSlots = n ∧ pool.freeSlots = poolSlots n)
      fun p pool => p.losesStates = false → pool.Shaped c := by
  refine Keeps.read fun pool hpool => ?_
  obtain ⟨m, hconv⟩ := hpool.conv
  obtain ⟨m', hrecurrent⟩ := hpool.recurrent
  rw [shapeOf_bind hconv, shapeOf_bind hrecurrent]
  refine Keeps.modify_bind (fun _ => True) (fun _ _ => trivial) ?_
  refine keeps_step_bind (fun _ _ hp => by cases hp) ?_
  refine keeps_step_bind (fun _ _ hp => by cases hp) ?_
  refine Keeps.modify_bind (fun pool => pool.convStates = some (c.conv n)) (fun _ _ => rfl) ?_
  refine keeps_step_bind (fun _ _ hp => by cases hp) ?_
  refine Keeps.modify_bind (fun pool => pool.convStates = some (c.conv n) ∧
    pool.recurrentStates = some (c.recurrent n)) (fun _ h => ⟨h, rfl⟩) ?_
  -- from here on the shapes can be read again
  refine (Keeps.forM (I := fun _ (pool : LinearStatePool) =>
    pool.convStates = some (c.conv n) ∧ pool.recurrentStates = some (c.recurrent n))
    (fun _ i => keeps_step fun s hs _ => ⟨⟨n, hs.1⟩, ⟨n, hs.2⟩⟩) []).bind fun _ => ?_
  exact Keeps.modify fun s hs => ⟨⟨hs.1, hs.2, fun i hi => if_pos hi⟩, rfl, rfl⟩

/-! ### The hybrid full/sliding-window pool -/

structure HybridPool.Shaped (c : Config) (pool : HybridPool) : Prop where
  full : ∃ n, pool.full = some (c.full n)
  swa : ∃ n, pool.swa = some (c.swa n)
  pageSize : pool.slots.pageSize = c.pageSize

structure HybridPool.Whole (c : Config) (numPages numTokens : ℕ) (pool : HybridPool) : Prop where
  full : pool.full = some (c.full numPages)
  swa : pool.swa = some (c.swa numTokens)
  fullNumTokens : pool.slots.fullNumTokens = numPages * c.pageSize
  swaNumTokens : pool.slots.swaNumTokens = numTokens
  pageSize : pool.slots.pageSize = c.pageSize

theorem HybridPool.Whole.shaped {numPages numTokens : ℕ} {pool : HybridPool}
    (h : pool.Whole c numPages numTokens) :
    pool.Shaped c := ⟨⟨_, h.full⟩, ⟨_, h.swa⟩, h.pageSize⟩

/-- The window pool's counts, before its tensors are there. -/
def HybridPool.Counts (c : Config) (numPages numTokens : ℕ) (pool : HybridPool) : Prop :=
  pool.slots.fullNumTokens = numPages * c.pageSize ∧ pool.slots.swaNumTokens = numTokens ∧
    pool.slots.pageSize = c.pageSize

theorem keeps_hybrid (numPages numTokens : ℕ) :
    Keeps (HybridPool.Shaped c) (HybridPool.rebuild numPages numTokens)
      (fun _ pool => pool.Whole c numPages numTokens ∧ pool.slots.swaFree.length = numTokens - 1)
      fun p pool => p.losesGroups = false → pool.Shaped c := by
  refine Keeps.read fun pool hpool => ?_
  obtain ⟨m, hfull⟩ := hpool.full
  obtain ⟨m', hswa⟩ := hpool.swa
  rw [shapeOf_bind hfull]
  refine Keeps.modify_bind (HybridPool.Counts c numPages numTokens) (fun s hs => ?_) ?_
  · subst hs
    exact ⟨rfl, rfl, hpool.pageSize⟩
  rw [shapeOf_bind hswa]
  refine Keeps.modify_bind (HybridPool.Counts c numPages numTokens) (fun _ h => h) ?_
  refine keeps_step_bind (fun _ _ hp => by cases hp) ?_
  refine keeps_step_bind (fun _ _ hp => by cases hp) ?_
  refine Keeps.modify_bind (fun pool => pool.full = some (c.full numPages) ∧
    pool.Counts c numPages numTokens) (fun _ h => ⟨rfl, h⟩) ?_
  refine keeps_step_bind (fun _ _ hp => by cases hp) ?_
  refine Keeps.modify_bind (HybridPool.Whole c numPages numTokens)
    (fun _ h => ⟨h.1, rfl, h.2.1, h.2.2.1, h.2.2.2⟩) ?_
  -- the mapping alone can still fail: both tensors are there
  refine keeps_step_modify (fun _ h _ => h.shaped) fun _ h => ?_
  refine ⟨⟨h.full, h.swa, h.fullNumTokens, h.swaNumTokens, h.pageSize⟩, ?_⟩
  simp [HybridSWAKVCache.initSwaPagedState, h.swaNumTokens]

/-! ### Pools of one geometry -/

/-- The slabs of the family are all there. -/
structure SlabPool.Whole (n : ℕ) (pool : SlabPool) : Prop where
  pages : pool.numPages = n
  slab : ∀ slab ∈ pool.family.base ++ pool.family.index, pool.slab slab = some n

theorem keeps_slabs_alloc (family : Family) (n : ℕ) (l : List Slab) (done : List Slab) :
    Keeps (fun pool : SlabPool => pool.family = family ∧ pool.numPages = n ∧
      ∀ slab ∈ done, pool.slab slab = some n) (l.forM (SlabPool.alloc n))
      (fun _ pool => pool.family = family ∧ pool.numPages = n ∧ ∀ slab ∈ done ++ l, pool.slab slab =
        some n)
      fun _ _ => True := by
  refine Keeps.forM (I := fun done (pool : SlabPool) =>
    pool.family = family ∧ pool.numPages = n ∧ ∀ slab ∈ done, pool.slab slab = some n)
      (fun done slab => ?_) done
  refine keeps_step_modify (fun _ _ => trivial) fun s hs => ⟨hs.1, hs.2.1, fun slab' hslab' => ?_⟩
  by_cases heq : slab' = slab
  · subst heq
    exact Function.update_self ..
  · show Function.update s.slab slab (some n) slab' = _
    rw [Function.update_of_ne heq]
    exact hs.2.2 slab' ((List.mem_append.mp hslab').resolve_right fun h =>
      heq (List.mem_singleton.mp h))

theorem keeps_slabs (n : ℕ) :
    Keeps (fun _ => True) (SlabPool.rebuild n) (fun _ pool => pool.Whole n) fun _ _ => True := by
  refine Keeps.read fun pool _ => ?_
  refine Keeps.modify_bind (fun s => s.family = pool.family) (fun s hs => by rw [hs]) ?_
  refine keeps_step_bind (fun _ _ => trivial) ?_
  refine Keeps.modify_bind (fun s => s.family = pool.family ∧ s.numPages = n ∧
    ∀ slab ∈ [], s.slab slab = some n) (fun s hs => ⟨hs, rfl, fun _ h => by cases h⟩) ?_
  refine (keeps_slabs_alloc pool.family n pool.family.base []).bind fun _ => ?_
  rw [List.nil_append]
  refine ((keeps_slabs_alloc pool.family n pool.family.index pool.family.base).onRaise fun _ _ h =>
    h).mono (fun _ h => h) (fun _ s hs => ⟨hs.2.1, ?_⟩) fun _ _ h => h
  rw [hs.1]
  exact hs.2.2

/-! ### The paged pool of DeepSeek-V4 -/

structure DSV4Pool.Whole (sz : Sizes) (pool : DSV4Pool) : Prop where
  sizes : pool.sizes = sz
  slab : ∀ slab ∈ DSV4Pool.slabs, pool.slab slab = some sz

theorem keeps_dsv4 (sizes : Sizes) :
    Keeps (fun _ => True) (DSV4Pool.rebuild sizes) (fun _ pool => pool.Whole sizes ∧
      pool.winFree = sizes.nWinPages - 1)
      fun _ _ => True := by
  refine Keeps.modify_bind (fun s => s.sizes = sizes ∧ ∀ slab ∈ [], s.slab slab = some sizes)
    (fun s _ => ⟨rfl, fun _ h => by cases h⟩) ?_
  refine keeps_step_bind (fun _ _ => trivial) ?_
  refine (Keeps.forM (I := fun done (pool : DSV4Pool) => pool.sizes = sizes ∧
    ∀ slab ∈ done, pool.slab slab = some sizes) (fun done slab => ?_) []).bind fun _ => ?_
  · refine keeps_step_modify (fun _ _ => trivial) fun s hs => ⟨hs.1, fun slab' hslab' => ?_⟩
    by_cases heq : slab' = slab
    · subst heq
      exact Function.update_self ..
    · show Function.update s.slab slab (some sizes) slab' = _
      rw [Function.update_of_ne heq]
      exact hs.2 slab' ((List.mem_append.mp hslab').resolve_right fun h =>
        heq (List.mem_singleton.mp h))
  · exact keeps_step_modify (fun _ _ => trivial) fun s hs => ⟨⟨hs.1, hs.2⟩, rfl⟩

/-! ### The expert cache -/

def MoeCache.limits (cache : MoeCache) : ℕ × Option ℕ := (cache.numExperts, cache.maxSlots)

structure MoeCache.Whole (cache : MoeCache) : Prop where
  banks : ∀ i < cache.numBanks, cache.bankCaches i = some cache.cacheSize
  idOfSlot : cache.idOfSlot = cache.cacheSize
  usage : cache.usage = cache.cacheSize
  evictSlots : cache.evictSlots = max cache.numExperts cache.cacheSize
  srcIndices : cache.srcIndices = max cache.numExperts cache.cacheSize
  prefill : cache.prefillOverlap = true → cache.prefillBuffers = some cache.cacheSize ∧
    2 * cache.numExperts ≤ cache.cacheSize

theorem validateRebuild_congr {cache cache' : MoeCache} (h : cache.limits = cache'.limits) (n : ℤ) :
    cache.validateRebuild n = cache'.validateRebuild n := by
  obtain ⟨hexperts, hslots⟩ := Prod.mk.inj h
  rw [MoeCache.validateRebuild, MoeCache.validateRebuild, hexperts, hslots]

def MoeCache.Banks (L : ℕ × Option ℕ) (n : ℕ) (cache : MoeCache) : Prop :=
  cache.limits = L ∧ cache.cacheSize = n ∧ ∀ i < cache.numBanks, cache.bankCaches i = some n

theorem keeps_moe_banks (L : ℕ × Option ℕ) (n numBanks : ℕ) :
    Keeps (fun cache => cache.limits = L ∧ cache.cacheSize = n ∧ cache.numBanks = numBanks)
      ((List.range numBanks).forM (MoeCache.allocBank n)) (fun _ => MoeCache.Banks L n)
      fun _ cache => cache.limits = L := by
  refine (Keeps.forM
    (I := fun done (cache : MoeCache) =>
    (cache.limits = L ∧ cache.cacheSize = n ∧ cache.numBanks = numBanks) ∧
    ∀ i ∈ done, cache.bankCaches i = some n) (fun done i => ?_) []).mono
    (fun _ h => ⟨h, fun _ hi => by cases hi⟩) (fun _ cache h => ?_) fun _ _ h => h
  · refine keeps_step_modify (fun _ h => h.1.1) fun cache h => ⟨h.1, fun i' hi' => ?_⟩
    by_cases heq : i' = i
    · subst heq
      exact Function.update_self ..
    · show Function.update cache.bankCaches i (some n) i' = _
      rw [Function.update_of_ne heq]
      exact h.2 i' ((List.mem_append.mp hi').resolve_right fun h => heq (List.mem_singleton.mp h))
  · refine ⟨h.1.1, h.1.2.1, fun i hi => h.2 i ?_⟩
    rw [List.nil_append, List.mem_range, ← h.1.2.2]
    exact hi

/-- All but the prefill buffers is there. -/
structure MoeCache.Sized (L : ℕ × Option ℕ) (n : ℕ) (cache : MoeCache) : Prop where
  banks : cache.Banks L n
  idOfSlot : cache.idOfSlot = n
  usage : cache.usage = n
  evictSlots : cache.evictSlots = max cache.numExperts n
  srcIndices : cache.srcIndices = max cache.numExperts n
  room : cache.prefillOverlap = true → decide (2 * cache.numExperts ≤ n) = true

theorem MoeCache.Sized.whole {L : ℕ × Option ℕ} {cache : MoeCache} (h : cache.Sized L n)
    {buffers : Option ℕ} (hbuffers : cache.prefillOverlap = true → buffers = some n) :
    cache.limits = L ∧ { cache with prefillBuffers := buffers }.Whole ∧ cache.cacheSize = n := by
  obtain ⟨hlimits, rfl, hbanks⟩ := h.banks
  exact ⟨hlimits, ⟨hbanks, h.idOfSlot, h.usage, h.evictSlots, h.srcIndices,
    fun hoverlap => ⟨hbuffers hoverlap, of_decide_eq_true (h.room hoverlap)⟩⟩, rfl⟩

theorem keeps_moe (L : ℕ × Option ℕ) (n : ℕ) :
    Keeps (fun cache => cache.limits = L ∧ cache.validateRebuild n = true) (MoeCache.rebuild n)
      (fun _ cache => cache.limits = L ∧ cache.Whole ∧ cache.cacheSize = n) fun _ cache =>
      cache.limits = L := by
  refine Keeps.read fun cache hcache => ?_
  refine (Keeps.ensure hcache.2).bind fun _ => ?_
  refine Keeps.modify_bind (fun s => s.limits = L ∧ s.cacheSize = n ∧ s.numBanks = cache.numBanks)
    (fun s hs => ?_) ?_
  · subst hs
    exact ⟨hcache.1, rfl, rfl⟩
  refine keeps_step_bind (fun _ h => h.1) ?_
  refine (keeps_moe_banks L n cache.numBanks).bind fun _ => ?_
  refine keeps_step_bind (fun _ h => h.1) ?_
  refine keeps_step_bind (fun _ h => h.1) ?_
  refine Keeps.modify_bind (fun s => s.Banks L n ∧ s.idOfSlot = n) (fun s hs => ⟨hs, rfl⟩) ?_
  refine keeps_step_bind (fun _ h => h.1.1) ?_
  refine Keeps.modify_bind (fun s => s.Banks L n ∧ s.idOfSlot = n ∧ s.usage = n)
    (fun s hs => ⟨hs.1, hs.2, rfl⟩) ?_
  refine keeps_step_bind (fun _ h => h.1.1) ?_
  refine Keeps.modify_bind (fun s => s.Banks L n ∧ s.idOfSlot = n ∧ s.usage = n ∧
    s.evictSlots = max s.numExperts n) (fun s hs => ⟨hs.1, hs.2.1, hs.2.2, rfl⟩) ?_
  refine keeps_step_bind (fun _ h => h.1.1) ?_
  refine Keeps.modify_bind (fun s => s.Banks L n ∧ s.idOfSlot = n ∧ s.usage = n ∧
    s.evictSlots = max s.numExperts n ∧ s.srcIndices = max s.numExperts n)
    (fun s hs => ⟨hs.1, hs.2.1, hs.2.2.1, hs.2.2.2, rfl⟩) ?_
  refine Keeps.modify_bind (MoeCache.Sized L n) (fun s hs => ?_) ?_
  · exact ⟨hs.1, hs.2.1, hs.2.2.1, hs.2.2.2.1, hs.2.2.2.2, fun h => (Bool.and_eq_true_iff.mp h).2⟩
  refine Keeps.read fun cache hsized => ?_
  refine Keeps.onlyIf (fun _ => ?_) fun hoverlap s hs => ?_
  · refine keeps_step_bind (fun _ h => h ▸ hsized.banks.1) (Keeps.modify fun s hs => ?_)
    subst hs
    exact hsized.whole fun _ => rfl
  · subst hs
    exact hsized.whole fun h => absurd (h.symm.trans hoverlap) Bool.noConfusion

end FreeToken.CacheRebuild
