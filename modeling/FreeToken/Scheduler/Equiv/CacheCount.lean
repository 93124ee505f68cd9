import FreeToken.Scheduler.Equiv.Admission

/-!
# The pages of the plain manager

The plain `CacheManager` is a cache manager whose pages can be counted.

* `CacheManager.allocate_isSome`: `_allocate` delivers what is free or evictable.
-/

namespace FreeToken

open List RadixTreeNode

variable {ps : ℕ}

theorem length_eq_add_of_count {l l₁ l₂ : List Slot}
    (h : ∀ x, l.count x = l₁.count x + l₂.count x) :
    l.length = l₁.length + l₂.length := by
  have hperm : l.Perm (l₁ ++ l₂) := by
    rw [perm_iff_count]
    intro x
    rw [count_append]
    exact h x
  rw [hperm.length_eq, length_append]

theorem length_rowPages {t : PageTable} {idx lo hi : ℕ} :
    (rowPages ps t idx lo hi).length = divCeil hi ps - lo / ps := by
  rw [rowPages, length_map, length_range']

namespace PrefixCache

variable {c : PrefixCache} {handles : List RadixCacheHandle}

theorem Inv.protectedSize_eq (h : c.Inv ps handles) :
    c.sizeInfo.protectedSize = prefixCount ps (lockedPaths handles) * ps := by
  cases c with
  | naive =>
    have hempty : pagePrefixes ps (lockedPaths handles) = ∅ := by
      rw [Finset.eq_empty_iff_forall_notMem]
      intro p hp
      obtain ⟨⟨q, hq, hpq⟩, hne, -⟩ := mem_pagePrefixes.mp hp
      obtain ⟨hd, hmem, rfl⟩ := mem_map.mp hq
      rw [h hd hmem] at hpq
      exact hne (prefix_nil.mp hpq)
    rw [prefixCount, hempty, Finset.card_empty, Nat.cast_zero, zero_mul]
    rfl
  | radix c =>
    obtain ⟨rfl, hinv, -⟩ := h
    exact hinv.protectedSize_eq

/-- Evicting within the evictable size gives at least as many pages as were asked for. -/
theorem evict_isSome (h : c.Inv ps handles) (hps : 0 < ps) {H : Heapq timestamp} {n : ℕ}
    (hn : ((n * ps : ℕ) : ℤ) ≤ c.sizeInfo.evictable) :
    ∃ c' out, c.evict H (n * ps) = some (c', out) ∧ n ≤ (stride ps out).length := by
  cases c with
  | naive =>
    have h0 : n * ps = 0 := by
      have : ((n * ps : ℕ) : ℤ) ≤ 0 := hn
      omega
    refine ⟨naive, [], ?_, ?_⟩
    · show (if n * ps = 0 then _ else _) = _
      rw [if_pos h0]
    · rcases mul_eq_zero.mp h0 with rfl | rfl
      · exact Nat.zero_le _
      · exact absurd hps (lt_irrefl 0)
  | radix c =>
    obtain ⟨rfl, hinv, -⟩ := h
    obtain ⟨c', out, rs, heq, -, hr, rfl, -, hlen, -⟩ :=
      RadixPrefixCache.evict_spec hinv (H := H) hn
    refine ⟨radix c', valuesOf rs, ?_, ?_⟩
    · show (c.evict H _).map _ = _
      rw [heq]
      rfl
    · rw [length_stride hps, length_valuesOf fun r hr' =>
        hinv.wf.value_len r (hr.unlocked hinv.wf hr').1]
      exact le_of_mul_le_mul_right (hlen.trans (le_divCeil_mul hps)) hps

end PrefixCache

namespace CacheManager

variable {m m' : CacheManager} {handles : List RadixCacheHandle}

/-- The pages that are free or cached, in any order. -/
def keptPages (m : CacheManager) : List Slot := m.freePages ++ m.prefixCache.pages m.pageSize

theorem count_keptPages (x : Slot) : m.keptPages.count x = m.kept x := count_append

/-- Only the pages in the cache are counted, not what else it keeps. -/
theorem length_keptPages_of_count {c' : PrefixCache}
    (h : ∀ x, (c'.pages m.pageSize).count x = (m.prefixCache.pages m.pageSize).count x) :
    ({ m with prefixCache := c' } : CacheManager).keptPages.length = m.keptPages.length := by
  have hperm : (c'.pages m.pageSize).Perm (m.prefixCache.pages m.pageSize) := perm_iff_count.mpr h
  exact (hperm.append_left _).length_eq

theorem availableSize_eq (hps : 0 < m.pageSize) (h : m.prefixCache.Inv m.pageSize handles)
    (hclosed : m.lazyFreeList = none) : m.availableSize =
      ((m.keptPages.length : ℤ) - prefixCount m.pageSize (lockedPaths handles)) * m.pageSize := by
  have htotal := h.length_pages hps
  have hprot := h.protectedSize_eq
  have hlen :
    m.keptPages.length = m.freeSlots.length + (m.prefixCache.pages m.pageSize).length := by
    unfold keptPages PageState.freePages
    rw [hclosed, length_append, length_append]
    rfl
  unfold availableSize
  rw [hlen]
  push_cast
  linarith

/-- **`_allocate` delivers what is free or evictable.** -/
theorem allocate_isSome (hps : 0 < m.pageSize) (h : m.prefixCache.Inv m.pageSize handles) {n : ℕ}
    (hn : ((n * m.pageSize : ℕ) : ℤ) ≤ m.availableSize) (H : Heapq timestamp) :
    (m.allocate H n).isSome := by
  unfold allocate
  split_ifs with hlt
  · have hsize : (((n - m.freeSlots.length) * m.pageSize : ℕ) : ℤ) ≤
        m.prefixCache.sizeInfo.evictable := by
      unfold availableSize at hn
      rw [Nat.cast_mul, Nat.cast_sub hlt.le]
      push_cast at hn
      linarith
    obtain ⟨c', out, heq, hlen⟩ := PrefixCache.evict_isSome h hps (H := H) hsize
    have hle : n ≤ (m.freeSlots ++ stride m.pageSize out).length := by
      rw [length_append]
      omega
    rw [heq]
    dsimp only
    rw [if_pos hle]
    rfl
  · rfl

end CacheManager

/-! ### The count -/

instance : PageCount CacheManager where
  Closed m := m.lazyFreeList = none
  kept m := m.keptPages.length

theorem Req.Held.lens {r : Req RadixCacheHandle} (h : r.Held) (hd : ps ∣ r.cacheHandle.cachedLen)
    (hlt : r.cachedLen < r.deviceLen) : LiveReq.Lens ps ⟨r, false⟩ := ⟨hd, h.le, hlt⟩

namespace CacheManager

variable {m m' : CacheManager} {handles : List RadixCacheHandle} {r : Req RadixCacheHandle}

theorem cacheReq_unfinished_count (hps : 0 < m.pageSize)
    (h : m.prefixCache.Inv m.pageSize (r.cacheHandle :: handles)) (hr : r.Held)
    (hlt : r.cachedLen < r.deviceLen) {tic now : ℤ} {r' : Req RadixCacheHandle}
    (heq : m.cacheReq r false tic now = (m', r')) :
    ∃ hd, r' = { r with cacheHandle := hd } ∧
      m'.prefixCache.Inv m.pageSize (r'.cacheHandle :: handles) ∧ m'.pageSize = m.pageSize ∧
        r'.Held ∧
      m.keptPages.length + (hd.cachedLen / m.pageSize - r.cacheHandle.cachedLen / m.pageSize) ≤
        m'.keptPages.length := by
  have hdvd := (h.handle mem_cons_self).1
  obtain ⟨hd, rfl, hinv, hps', -, hnode, hgrow, hlens, -, hkept⟩ := cacheReq_unfinished_spec
    (r := ⟨r, false⟩) hps h (.refl _) (hr.lens hdvd hlt) hr.node tic now heq.symm
  refine ⟨hd, rfl, hinv, hps', ⟨hnode, hlens.le⟩, ?_⟩
  have hlen : m'.keptPages.length + (LiveReq.pages m.pageSize m'.pageTable
      ⟨{ r with cacheHandle := hd }, false⟩).length =
        m.keptPages.length + (LiveReq.pages m.pageSize m.pageTable ⟨r, false⟩).length := by
    rw [← length_append]
    refine length_eq_add_of_count fun x => ?_
    rw [count_append, count_keptPages, count_keptPages]
    exact hkept x
  have hdiv : ∀ n, n ≤ r.cachedLen → n / m.pageSize ≤ divCeil r.cachedLen m.pageSize := by
    intro n hn
    apply Nat.div_le_of_le_mul
    rw [mul_comm]
    exact hn.trans (le_divCeil_mul hps)
  have hold := hdiv r.cacheHandle.cachedLen hr.le
  have hnew := hdiv hd.cachedLen hlens.le
  have hmono : r.cacheHandle.cachedLen / m.pageSize ≤ hd.cachedLen / m.pageSize :=
    Nat.div_le_div_right hgrow
  unfold LiveReq.pages LiveReq.covered at hlen
  rw [length_rowPages, length_rowPages] at hlen
  change _ + (divCeil r.cachedLen m.pageSize - hd.cachedLen / m.pageSize) =
    _ + (divCeil r.cachedLen m.pageSize - r.cacheHandle.cachedLen / m.pageSize) at hlen
  omega

theorem cacheReq_finished_count (hps : 0 < m.pageSize)
    (h : m.prefixCache.Inv m.pageSize (r.cacheHandle :: handles)) (hr : r.Held)
    (hlt : r.cachedLen < r.deviceLen) (tic now : ℤ) :
    (m.cacheReq r true tic now).1.prefixCache.Inv m.pageSize handles ∧
      (m.cacheReq r true tic now).1.pageSize = m.pageSize ∧
      m.keptPages.length ≤ (m.cacheReq r true tic now).1.keptPages.length := by
  have hdvd := (h.handle mem_cons_self).1
  obtain ⟨hinv, hps', -, -, hkept⟩ := cacheReq_finished_spec (r := ⟨r, false⟩) hps h (.refl _)
    (hr.lens hdvd hlt) hr.node rfl tic now rfl
  refine ⟨hinv, hps', ?_⟩
  have hlen : (m.cacheReq r true tic now).1.keptPages.length =
      m.keptPages.length + (LiveReq.pages m.pageSize m.pageTable ⟨r, false⟩).length := by
    refine length_eq_add_of_count fun x => ?_
    rw [count_keptPages, count_keptPages]
    exact hkept x
  omega

theorem allocatePaged_count (h : m.prefixCache.Inv m.pageSize handles) {H : Heapq timestamp}
    {reqs : List (Req RadixCacheHandle)} (ha : m.allocatePaged H reqs = some m') :
    m'.prefixCache.Inv m.pageSize handles ∧ m'.pageSize = m.pageSize ∧
      m.keptPages.length = m'.keptPages.length + neededPages (allocationInfo m.pageSize reqs) := by
  obtain ⟨pgs, hlen, hinv, hps, -, -, hkept⟩ := allocatePaged_spec h ha
  refine ⟨hinv, hps, ?_⟩
  rw [← hlen]
  refine length_eq_add_of_count fun x => ?_
  rw [count_keptPages, count_keptPages]
  exact hkept x

theorem matchReq_count (hps : 0 < m.pageSize) (h : m.prefixCache.Inv m.pageSize handles)
    (ids : List Token) (tic : ℤ) :
    ∃ c' hd, m.matchReq ids tic = ({ m with prefixCache := c' }, hd) ∧ c'.Inv m.pageSize handles ∧
      c'.Lockable hd ∧ hd.node = ids.take hd.cachedLen ∧
      ({ m with prefixCache := c' } : CacheManager).keptPages.length = m.keptPages.length := by
  obtain ⟨c', hd, hmatch, hinv, hlock, hnode, hle, hcount⟩ := PrefixCache.matchPrefix_spec h hps
    (ids.take (ids.length - 1)) tic
  refine ⟨c', hd, by rw [matchReq, hmatch], hinv, hlock, ?_, ?_⟩
  · rw [length_take] at hle
    rw [take_take, min_eq_left (by omega)] at hnode
    exact hnode
  · exact length_keptPages_of_count hcount

end CacheManager

instance : CountedCache CacheManager RadixCacheHandle where
  New m := ∃ (ps numPages : ℕ) (pageTable : PageTable), 0 < ps ∧
    (m = .init ps numPages pageTable .naive ∨
      m = .init ps numPages pageTable (.radix { pageSize := ps }))
  AllocatePaged m reqs m' := ∃ H, m.allocatePaged H reqs = some m'
  Commit m r m' r' := ∃ tic now, m.cacheReq r false tic now = (m', r')
  Release m r m' := ∃ tic now, (m.cacheReq r true tic now).1 = m'
  Other m m' := m' = m ∨
    m.lazyFreeList = none ∧ m' = { m with toPageState := m.toPageState.enterLazyFree } ∨
    m' = { m with toPageState := m.toPageState.exitLazyFree }
  Ok m handles := 0 < m.pageSize ∧ m.prefixCache.Inv m.pageSize handles
  Lockable m hd := m.prefixCache.Lockable hd
  new_spec h := by
    obtain ⟨ps, numPages, pageTable, hps, rfl | rfl⟩ := h
    · exact ⟨⟨hps, fun hd hm => absurd hm not_mem_nil⟩, rfl⟩
    · exact ⟨⟨hps, rfl, kvInv_nil hps, fun hd hm => absurd hm not_mem_nil⟩, rfl⟩
  pageSize_pos h := h.1
  ok_perm h hp := ⟨h.1, h.2.of_perm hp⟩
  handle_spec h hm := (h.2.handle hm).2
  availableSize_eq h hclosed := CacheManager.availableSize_eq h.1 h.2 hclosed
  matchReq_spec {m m' handles ids tic hd v} h heq := by
    obtain ⟨c', hd', hmatch, hinv, hlock, hnode, hlen⟩ :=
      CacheManager.matchReq_count h.1 h.2 ids tic
    obtain ⟨rfl, hrest⟩ := Prod.mk.inj ((by rw [hmatch] : (_, _, _) = _).symm.trans heq)
    obtain ⟨rfl, -⟩ := Prod.mk.inj hrest
    exact ⟨⟨h.1, hinv⟩, hlock, ⟨rfl, id, hlen⟩, hnode⟩
  lock_spec h hl heq := by
    obtain ⟨rfl, rfl⟩ := Prod.mk.inj heq
    obtain ⟨hinv, hcount⟩ := PrefixCache.lock_spec h.2 hl
    exact ⟨⟨h.1, hinv⟩, ⟨rfl, id, CacheManager.length_keptPages_of_count hcount⟩, rfl, rfl⟩
  unlock_spec h := by
    obtain ⟨hinv, -, hcount⟩ := PrefixCache.unlock_spec h.2 (.refl _)
    exact ⟨⟨h.1, hinv⟩, ⟨rfl, id, CacheManager.length_keptPages_of_count hcount⟩⟩
  ensureMambaSlots_spec _ h := ⟨h, .refl _⟩
  allocSlots_spec _ h := ⟨h, .refl _⟩
  freeStateSlots_spec _ h := ⟨h, .refl _⟩
  writeMatched_spec _ _ h := ⟨h, ⟨rfl, id, rfl⟩⟩
  other_spec h ho := by
    rcases ho with rfl | ⟨hclosed, rfl⟩ | rfl
    · exact ⟨h, rfl, rfl⟩
    · refine ⟨h, rfl, ?_⟩
      show (List.length (_ ++ [] ++ _)) = List.length (_ ++ _ ++ _)
      rw [hclosed]
      rfl
    · refine ⟨h, rfl, ?_⟩
      show (List.length (_ ++ _ ++ [] ++ _)) = List.length (_ ++ _ ++ _)
      rw [append_nil]
      rfl
  allocatePaged_spec h ha := by
    obtain ⟨H, ha⟩ := ha
    obtain ⟨hinv, hps, hkept⟩ := CacheManager.allocatePaged_count h.2 ha
    exact ⟨⟨hps ▸ h.1, hps ▸ hinv⟩, hps, hkept⟩
  commit_spec h hr hlt hc := by
    obtain ⟨tic, now, hc⟩ := hc
    obtain ⟨hd, rfl, hinv, hps, hheld, hkept⟩ :=
      CacheManager.cacheReq_unfinished_count h.1 h.2 hr hlt hc
    exact ⟨⟨hps ▸ h.1, hps ▸ hinv⟩, hps, ⟨rfl, rfl, rfl, rfl⟩, rfl, hheld, hkept⟩
  release_spec h hr hlt hc := by
    obtain ⟨tic, now, rfl⟩ := hc
    obtain ⟨hinv, hps, hkept⟩ := CacheManager.cacheReq_finished_count h.1 h.2 hr hlt tic now
    exact ⟨⟨hps.symm ▸ h.1, hps.symm ▸ hinv⟩, hps, hkept⟩

end FreeToken
