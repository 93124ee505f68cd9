import FreeToken.KvCache.Equiv.RadixCache
import FreeToken.Scheduler.Cache
import FreeToken.Scheduler.Equiv.Table

/-!
# Correctness of the plain `CacheManager`

* `treePages`: the pages in a radix tree.
* `CacheManager.allocatePaged_spec`, `CacheManager.cacheReq_spec`: where the pages go.
* `cacheManager_conserves_pages`: **every page is in one place at any time.**
-/

namespace FreeToken

open TrieEdge RadixTreeNode

variable {ps : ℕ}

/-! ### The pages of a tree -/

/-- The number of times a page occurs in a node. -/
def pageCount (ps : ℕ) (x : Slot) (n : RadixTreeNode) : ℤ := ((stride ps n.value).count x : ℕ)

def treePages (ps : ℕ) (nodes : List RadixTreeNode) : List Slot :=
  nodes.flatMap fun n => stride ps n.value

theorem splits_pageCount (hps : 0 < ps) (x : Slot) : Splits ps (pageCount ps x) where
  stamp _ _ := rfl
  split n pos hc := by
    simp only [pageCount, splitAt]
    rw [← Nat.cast_add, ← List.count_append]
    rcases le_total pos n.value.length with hle | hle
    · rw [← stride_append hps, List.take_append_drop]
      rw [List.length_take, Nat.min_eq_left hle]
      exact hc.dvd
    · rw [List.take_of_length_le hle, List.drop_eq_nil_of_le hle, stride_nil, List.append_nil]

theorem count_treePages (nodes : List RadixTreeNode) (x : Slot) :
    ((treePages ps nodes).count x : ℤ) = total (pageCount ps x) nodes := by
  induction nodes with
  | nil => rfl
  | cons n nodes ih =>
    rw [total_cons, ← ih, pageCount, ← Nat.cast_add, ← List.count_append]
    rfl

/-- Striding over the slots of whole nodes. -/
theorem stride_valuesOf (hps : 0 < ps) {rs : List RadixTreeNode}
    (h : ∀ n ∈ rs, ps ∣ n.value.length) : stride ps (valuesOf rs) = treePages ps rs := by
  induction rs with
  | nil => simp [valuesOf, treePages]
  | cons n rs ih =>
    rw [valuesOf_cons, stride_append hps (h n List.mem_cons_self),
      ih fun m hm => h m (List.mem_cons_of_mem n hm)]
    rfl

theorem WF.dvd_value {nodes : List RadixTreeNode} (h : WF ps nodes) {n : RadixTreeNode}
    (hn : n ∈ nodes) : ps ∣ n.value.length := by
  rw [h.value_len n hn]
  exact h.trie.dvd_key n hn

theorem Removes.count_treePages {nodes nodes' rs : List RadixTreeNode}
    (hr : Removes nodes rs nodes') (h : WF ps nodes) (x : Slot) :
    (treePages ps nodes).count x =
      (treePages ps nodes').count x + (stride ps (valuesOf rs)).count x := by
  have h₁ := hr.total_eq h (pageCount ps x)
  rw [stride_valuesOf h.trie.page_pos fun n hn => h.dvd_value (hr.unlocked h hn).1]
  rw [← FreeToken.count_treePages, ← FreeToken.count_treePages, ← FreeToken.count_treePages] at h₁
  omega

/-! ### The prefix cache -/

variable {H : Heapq timestamp}

namespace PrefixCache

variable {c c' : PrefixCache} {handles rest : List RadixCacheHandle} {hd : RadixCacheHandle}

def pages (ps : ℕ) : PrefixCache → List Slot
  | naive => []
  | radix c => treePages ps c.nodes

/-- The invariant of a cache whose locked handles are `handles`. -/
def Inv (ps : ℕ) (handles : List RadixCacheHandle) : PrefixCache → Prop
  | naive => ∀ hd ∈ handles, hd = ⟨0, []⟩
  | radix c => c.pageSize = ps ∧ c.Inv (handles.map RadixCacheHandle.node) ∧
      ∀ hd ∈ handles, hd.node.length = hd.cachedLen

def Lockable (hd : RadixCacheHandle) : PrefixCache → Prop
  | naive => hd = ⟨0, []⟩
  | radix c => IsAddress c.nodes hd.node ∧ hd.node.length = hd.cachedLen

theorem Inv.of_perm (h : c.Inv ps handles) (hp : handles.Perm rest) : c.Inv ps rest := by
  cases c with
  | naive => exact fun hd hm => h hd (hp.mem_iff.mpr hm)
  | radix c =>
    obtain ⟨hps, hinv, hlen⟩ := h
    exact ⟨hps, hinv.of_perm (hp.map _), fun hd hm => hlen hd (hp.mem_iff.mpr hm)⟩

/-- A locked handle names a path of whole pages. -/
theorem Inv.handle (h : c.Inv ps handles) (hm : hd ∈ handles) :
    ps ∣ hd.cachedLen ∧ hd.node.length = hd.cachedLen := by
  cases c with
  | naive =>
    rw [h hd hm]
    exact ⟨dvd_zero _, rfl⟩
  | radix c =>
    obtain ⟨rfl, hinv, hlen⟩ := h
    have ha := hinv.locked hd.node (List.mem_map_of_mem hm)
    exact ⟨hlen hd hm ▸ hinv.wf.trie.dvd_address ha, hlen hd hm⟩

theorem matchPrefix_spec (h : c.Inv ps handles) (hps : 0 < ps) (ids : List Token) (tic : ℤ) :
    ∃ c' hd, c.matchPrefix ids tic = (c', hd) ∧ c'.Inv ps handles ∧ c'.Lockable hd ∧
      hd.node = ids.take hd.cachedLen ∧ hd.cachedLen ≤ ids.length ∧
      ∀ x, (c'.pages ps).count x = (c.pages ps).count x := by
  cases c with
  | naive => exact ⟨naive, ⟨0, []⟩, rfl, h, rfl, by simp, Nat.zero_le _, fun _ => rfl⟩
  | radix c =>
    obtain ⟨rfl, hinv, hlen⟩ := h
    obtain ⟨c', m, heq, hp, hr, hsz, ha, hl⟩ := RadixPrefixCache.matchPrefix_spec hinv ids tic
    refine ⟨radix c', ⟨m, ids.take m⟩, by simp only [matchPrefix, heq], ⟨hp, ?_, hlen⟩,
      ⟨ha, ?_⟩, rfl, hl.le, fun x => ?_⟩
    · have := hr.kvInv hinv
      unfold RadixPrefixCache.Inv
      rwa [hp, hsz]
    · rw [List.length_take, Nat.min_eq_left hl.le]
    · have := hr.total_eq hinv.wf (splits_pageCount hps x)
      rw [← count_treePages, ← count_treePages] at this
      exact_mod_cast this

theorem count_pages_of_sameCore {nodes nodes' : List RadixTreeNode} (h : SameCore nodes nodes')
    (x : Slot) : (treePages ps nodes').count x = (treePages ps nodes).count x := by
  have := h.total_eq (g := pageCount ps x) fun _ => rfl
  rw [← count_treePages, ← count_treePages] at this
  exact_mod_cast this

theorem lock_spec (h : c.Inv ps handles) (hl : c.Lockable hd) :
    (c.lockHandle hd false).Inv ps (hd :: handles) ∧
      ∀ x, ((c.lockHandle hd false).pages ps).count x = (c.pages ps).count x := by
  cases c with
  | naive =>
    refine ⟨fun hd' hm => ?_, fun _ => rfl⟩
    rcases List.mem_cons.mp hm with rfl | hm
    · exact hl
    · exact h hd' hm
  | radix c =>
    obtain ⟨rfl, hinv, hlen⟩ := h
    obtain ⟨hinv', hsame⟩ := RadixPrefixCache.lockHandle_spec hinv hl.1
    refine ⟨⟨rfl, hinv', fun hd' hm => ?_⟩, count_pages_of_sameCore hsame⟩
    rcases List.mem_cons.mp hm with rfl | hm
    · exact hl.2
    · exact hlen hd' hm

theorem unlock_spec (h : c.Inv ps handles) (hp : handles.Perm (hd :: rest)) :
    (c.lockHandle hd true).Inv ps rest ∧
      (∀ hd', c.Lockable hd' → (c.lockHandle hd true).Lockable hd') ∧
      ∀ x, ((c.lockHandle hd true).pages ps).count x = (c.pages ps).count x := by
  have h' := h.of_perm hp
  cases c with
  | naive => exact ⟨fun hd' hm => h' hd' (List.mem_cons_of_mem _ hm), fun _ h => h, fun _ => rfl⟩
  | radix c =>
    obtain ⟨rfl, hinv, hlen⟩ := h'
    obtain ⟨hinv', hsame⟩ :=
      RadixPrefixCache.unlockHandle_spec hinv (List.mem_cons_self : hd.node ∈ hd.node :: _)
    rw [List.map_cons, List.erase_cons_head] at hinv'
    exact ⟨⟨rfl, hinv', fun hd' hm => hlen hd' (List.mem_cons_of_mem _ hm)⟩,
      fun hd' hl => ⟨hsame.isAddress hl.1, hl.2⟩, count_pages_of_sameCore hsame⟩

theorem insertPrefix_take (c : RadixPrefixCache) (ids : List Token) (indices : List Slot)
    (tic now : ℤ) :
    c.insertPrefix ids indices tic now = c.insertPrefix ids (indices.take ids.length) tic now := by
  have hle := alignDown_le ids.length c.pageSize
  simp only [RadixPrefixCache.insertPrefix, List.take_take, Nat.min_eq_left hle]

theorem insertPrefix_spec (h : c.Inv ps handles) (hps : 0 < ps) {ids : List Token}
    {indices : List Slot} (hlen : ids.length ≤ indices.length) (tic now : ℤ) (hm : hd ∈ handles)
    (hnode : hd.node = ids.take hd.cachedLen) :
    ∃ c' m hd', c.insertPrefix ids indices tic now = (c', m, hd') ∧ c'.Inv ps handles ∧
      c'.Lockable hd' ∧ hd'.node = ids.take hd'.cachedLen ∧ ps ∣ m ∧ ps ∣ hd'.cachedLen ∧
      hd.cachedLen ≤ m ∧ m ≤ hd'.cachedLen ∧ hd'.cachedLen ≤ ids.length ∧
      ∀ x, (c'.pages ps).count x = (c.pages ps).count x +
        (stride ps ((indices.take hd'.cachedLen).drop m)).count x := by
  cases c with
  | naive =>
    rw [h hd hm]
    exact ⟨naive, 0, ⟨0, []⟩, rfl, h, rfl, by simp, dvd_zero _, dvd_zero _, le_rfl, le_rfl,
      Nat.zero_le _, fun _ => by simp [pages]⟩
  | radix c =>
    obtain ⟨hd₁, hd₂⟩ := Inv.handle h hm
    obtain ⟨rfl, hinv, hlens⟩ := h
    obtain ⟨L, hL⟩ : ∃ L, L = alignDown ids.length c.pageSize := ⟨_, rfl⟩
    have hLi : L ≤ ids.length := hL ▸ alignDown_le _ _
    have hshort : ids.length = (indices.take ids.length).length := by
      rw [List.length_take]
      omega
    obtain ⟨c', m, heq, hp, hinv', ha, hl, -, htot, -⟩ :=
      RadixPrefixCache.insertPrefix_spec hinv hshort tic now
    rw [← hL] at heq ha hl htot
    have htake : (ids.take L).length = L := by rw [List.length_take]; omega
    have hmL : m ≤ L := htake ▸ hl.le
    -- the locked prefix is in the tree, so the match reaches it
    have hle : hd.cachedLen ≤ ids.length := by
      have := congrArg List.length hnode
      rw [hd₂, List.length_take] at this
      omega
    have hhL : hd.cachedLen ≤ L := by
      rw [hL]
      exact (le_alignDown_iff hd₁).mpr hle
    have hreach : hd.cachedLen ≤ m := by
      by_cases h0 : hd.node = []
      · rw [← hd₂, h0]
        exact Nat.zero_le m
      refine hl.max _ hd₁ (by rwa [htake]) ?_
      rw [List.take_take, Nat.min_eq_left hhL, ← hnode]
      exact hinv.wf.trie.resident_address (hinv.locked hd.node (List.mem_map_of_mem hm)) h0
    refine ⟨radix c', m, ⟨L, ids.take L⟩, ?_, ⟨hp, ?_, hlens⟩, ⟨ha, htake⟩, rfl, hl.dvd,
      hL ▸ dvd_alignDown _ _, hreach, hmL, hLi, fun x => ?_⟩
    · simp only [insertPrefix]
      rw [insertPrefix_take, heq]
    · exact hinv'
    · have := htot (fun l => ((stride c.pageSize l).count x : ℕ)) (splits_pageCount hps x) (by simp)
      rw [List.take_take, Nat.min_eq_left hLi] at this
      have h₁ : ((treePages c.pageSize c'.nodes).count x : ℤ) = _ := count_treePages _ x
      have h₂ : ((treePages c.pageSize c.nodes).count x : ℤ) = _ := count_treePages _ x
      unfold pageCount at h₁ h₂
      rw [← h₁, ← h₂] at this
      exact_mod_cast this

theorem evict_spec (h : c.Inv ps handles) {size : ℕ} {out : List Slot}
    (he : c.evict H size = some (c', out)) :
    c'.Inv ps handles ∧
      ∀ x, (c.pages ps).count x = (c'.pages ps).count x + (stride ps out).count x := by
  cases c with
  | naive =>
    unfold evict at he
    simp only at he
    split at he
    · obtain ⟨rfl, rfl⟩ := Prod.mk.inj (Option.some.inj he)
      exact ⟨h, fun _ => by simp [pages]⟩
    · simp at he
  | radix c =>
    obtain ⟨rfl, hinv, hlen⟩ := h
    simp only [evict, Option.map_eq_some_iff] at he
    obtain ⟨⟨c₁, out₁⟩, he, heq⟩ := he
    obtain ⟨rfl, rfl⟩ := Prod.mk.inj heq
    have hsome : (c.evict H size).isSome := Option.isSome_of_eq_some he
    rcases (RadixPrefixCache.evict_eq_some_iff hinv).mp hsome with hsz | h0
    · obtain ⟨c₂, kv, rs, heq₂, hp, hr, rfl, -, -, hinv'⟩ :=
        RadixPrefixCache.evict_spec hinv (H := H) hsz
      rw [he] at heq₂
      obtain ⟨rfl, rfl⟩ := Prod.mk.inj (Option.some.inj heq₂)
      exact ⟨⟨hp, hinv', hlen⟩, hr.count_treePages hinv.wf⟩
    · rw [RadixPrefixCache.evict, if_pos h0] at he
      obtain ⟨rfl, rfl⟩ := Prod.mk.inj (Option.some.inj he)
      exact ⟨⟨rfl, hinv, hlen⟩, fun _ => by simp⟩

end PrefixCache

/-! ### The manager -/

variable {p : PendingReq RadixCacheHandle} {reservedSize : ℕ} {tic : ℤ}

namespace CacheManager

variable {m m' : CacheManager} {handles rest : List RadixCacheHandle} {r : LiveReq RadixCacheHandle}

def kept (m : CacheManager) (x : Slot) : ℕ :=
  m.freePages.count x + (m.prefixCache.pages m.pageSize).count x

/-- `_allocate` takes the pages it returns from the free list, or from the cache. -/
theorem allocate_spec (h : m.prefixCache.Inv m.pageSize handles) {needed : ℕ} {pgs : List Slot}
    (ha : m.allocate H needed = some (m', pgs)) :
    m'.prefixCache.Inv m.pageSize handles ∧ m'.pageSize = m.pageSize ∧ m'.numPages = m.numPages ∧
      m'.pageTable = m.pageTable ∧ m'.lazyFreeList = m.lazyFreeList ∧ pgs.length = needed ∧
      ∀ x, m.kept x = m'.kept x + pgs.count x := by
  have htake : ∀ (l : List Slot) (x : Slot), l.count x =
      (l.drop needed).count x + (l.take needed).count x := fun l x => by
    rw [add_comm, ← List.count_append, List.take_append_drop]
  unfold allocate at ha
  split at ha
  · next hlt =>
    split at ha
    · simp at ha
    · next c' out he =>
      obtain ⟨hinv, hcount⟩ := PrefixCache.evict_spec h he
      simp only at ha
      split at ha
      · next hle =>
        obtain ⟨rfl, rfl⟩ := Prod.mk.inj (Option.some.inj ha)
        refine ⟨hinv, rfl, rfl, rfl, rfl, by rw [List.length_take, Nat.min_eq_left hle],
          fun x => ?_⟩
        have h₁ := htake (m.freeSlots ++ stride m.pageSize out) x
        have h₂ := hcount x
        rw [List.count_append] at h₁
        simp only [kept, PageState.freePages, List.count_append]
        omega
      · simp at ha
  · next hlt =>
    obtain ⟨rfl, rfl⟩ := Prod.mk.inj (Option.some.inj ha)
    refine ⟨h, rfl, rfl, rfl, rfl, by rw [List.length_take]; omega, fun x => ?_⟩
    have := htake m.freeSlots x
    simp only [kept, PageState.freePages, List.count_append]
    omega

theorem kept_free (m : CacheManager) (indices : List Slot) (x : Slot) :
    (m.free indices).kept x = m.kept x + (stride m.pageSize indices).count x := by
  have := (m.toPageState.freePages_free indices).count_eq x
  rw [List.count_append] at this
  simp only [kept, free, PageState.free_pageSize, this]
  omega

/-- The commit of `cache_req` up to the point where finished and unfinished requests part. -/
theorem commit_spec (hps : 0 < m.pageSize) (h : m.prefixCache.Inv m.pageSize handles)
    (hp : handles.Perm (r.req.cacheHandle :: rest)) (hl : r.Lens m.pageSize)
    (hnode : r.req.cacheHandle.node = r.req.inputIds.take r.req.cacheHandle.cachedLen)
    (tic now : ℤ) :
    ∃ c' cachedLen hd, m.prefixCache.insertPrefix (r.req.inputIds.take r.req.cachedLen)
        (m.pageTable.row r.req.tableIdx 0 r.req.cachedLen) tic now = (c', cachedLen, hd) ∧
      (c'.lockHandle r.req.cacheHandle true).Inv m.pageSize rest ∧
      (c'.lockHandle r.req.cacheHandle true).Lockable hd ∧
      hd.node = r.req.inputIds.take hd.cachedLen ∧ m.pageSize ∣ hd.cachedLen ∧
      cachedLen ≤ hd.cachedLen ∧ hd.cachedLen ≤ r.req.cachedLen ∧
      r.req.cacheHandle.cachedLen ≤ hd.cachedLen ∧
      ((m.pageTable.row r.req.tableIdx 0 r.req.cachedLen).take cachedLen).drop
          r.req.cacheHandle.cachedLen =
        m.pageTable.row r.req.tableIdx r.req.cacheHandle.cachedLen cachedLen ∧
      ∀ x, ({ m with prefixCache := c' }.unlock r.req.cacheHandle |>.free
          (m.pageTable.row r.req.tableIdx r.req.cacheHandle.cachedLen cachedLen)).kept x =
        m.kept x + (rowPages m.pageSize m.pageTable r.req.tableIdx r.req.cacheHandle.cachedLen
          hd.cachedLen).count x := by
  have hle : r.req.cacheHandle.cachedLen ≤ r.req.cachedLen := hl.le
  have hd₀ : m.pageSize ∣ r.req.cacheHandle.cachedLen := hl.dvd
  have hrow : (r.req.inputIds.take r.req.cachedLen).length ≤
      (m.pageTable.row r.req.tableIdx 0 r.req.cachedLen).length := by
    rw [PageTable.length_row, List.length_take]
    omega
  obtain ⟨c', k, hd, heq, hinv, hlock, hnode', hdk, hdh, hk₁, hk₂, hk₃, hcount⟩ :=
    PrefixCache.insertPrefix_spec h hps hrow tic now (hp.mem_iff.mpr List.mem_cons_self)
      (by rw [List.take_take, Nat.min_eq_left hle]; exact hnode)
  rw [List.length_take] at hk₃
  have hk₄ : hd.cachedLen ≤ r.req.cachedLen := by omega
  obtain ⟨hinv', hlock', hcount'⟩ := PrefixCache.unlock_spec hinv hp
  rw [List.take_take, Nat.min_eq_left hk₄] at hnode'
  refine ⟨c', k, hd, heq, hinv', hlock' hd hlock, hnode', hdh, hk₂, hk₄, hk₁.trans hk₂, ?_,
    fun x => ?_⟩
  · rw [PageTable.take_row (by omega), zero_add, PageTable.drop_row (by omega), zero_add]
  · rw [kept_free]
    have h₁ := hcount x
    have h₂ := hcount' x
    rw [PageTable.take_row (by omega), zero_add, PageTable.drop_row (by omega), zero_add,
      stride_row hps hdk] at h₁
    rw [← rowPages_append hps hd₀ hdk hk₁ hk₂, List.count_append]
    simp only [kept, unlock, stride_row hps hd₀, PageState.freePages] at h₁ h₂ ⊢
    omega

/-- **`cache_req` of a finished request** leaves each of its pages free or in the cache. -/
theorem cacheReq_finished_spec (hps : 0 < m.pageSize) (h : m.prefixCache.Inv m.pageSize handles)
    (hp : handles.Perm (r.req.cacheHandle :: rest)) (hl : r.Lens m.pageSize)
    (hnode : r.req.cacheHandle.node = r.req.inputIds.take r.req.cacheHandle.cachedLen)
    (hpend : r.pending = false) (tic now : ℤ)
    (heq : m' = (m.cacheReq r.req true tic now).1) :
    m'.prefixCache.Inv m.pageSize rest ∧ m'.pageSize = m.pageSize ∧ m'.numPages = m.numPages ∧
      m'.pageTable = m.pageTable ∧
      ∀ x, m'.kept x = m.kept x + (r.pages m.pageSize m.pageTable).count x := by
  have hd₀ : m.pageSize ∣ r.req.cacheHandle.cachedLen := hl.dvd
  obtain ⟨c', k, hd, hins, hinv, -, -, hdh, -, hk, hk', hslice, hcount⟩ :=
    commit_spec hps h hp hl hnode tic now
  unfold cacheReq at heq
  simp only [hins, hslice, if_true] at heq
  refine ⟨?_, ?_, ?_, ?_, fun x => ?_⟩
  · rw [heq]
    exact hinv
  · simp [heq, free, unlock]
  · simp [heq, free, unlock]
  · simp [heq, free, unlock]
  · rw [heq, kept_free, hcount, LiveReq.pages, LiveReq.covered, hpend, if_neg (by decide)]
    simp only [PageState.paddedTail, free, unlock, PageState.free_pageSize,
      PageState.free_pageTable]
    rw [stride_row hps hdh, rowPages_divCeil hps, add_assoc, ← List.count_append]
    rw [rowPages_append hps hd₀ hdh hk' hk]
    rfl

/-- **`cache_req` of an unfinished request** leaves each of its pages free, in the cache, or in the
rest of its span. -/
theorem cacheReq_unfinished_spec (hps : 0 < m.pageSize) (h : m.prefixCache.Inv m.pageSize handles)
    (hp : handles.Perm (r.req.cacheHandle :: rest)) (hl : r.Lens m.pageSize)
    (hnode : r.req.cacheHandle.node = r.req.inputIds.take r.req.cacheHandle.cachedLen)
    (tic now : ℤ) {req' : Req RadixCacheHandle}
    (heq : (m', req') = m.cacheReq r.req false tic now) :
    ∃ hd : RadixCacheHandle, req' = { r.req with cacheHandle := hd } ∧
      m'.prefixCache.Inv m.pageSize (hd :: rest) ∧ m'.pageSize = m.pageSize ∧
      m'.numPages = m.numPages ∧ hd.node = r.req.inputIds.take hd.cachedLen ∧
      r.req.cacheHandle.cachedLen ≤ hd.cachedLen ∧ LiveReq.Lens m.pageSize ⟨req', r.pending⟩ ∧
      (∀ i, i ≠ r.req.tableIdx → ∀ p, m'.pageTable i p = m.pageTable i p) ∧
      ∀ x, m'.kept x + (LiveReq.pages m.pageSize m'.pageTable ⟨req', r.pending⟩).count x =
        m.kept x + (r.pages m.pageSize m.pageTable).count x := by
  have hd₀ : m.pageSize ∣ r.req.cacheHandle.cachedLen := hl.dvd
  obtain ⟨c', k, hd, hins, hinv, hlock, hnode', hdh, hkh, hk, hk', hslice, hcount⟩ :=
    commit_spec hps h hp hl hnode tic now
  obtain ⟨hinv', hcount'⟩ := PrefixCache.lock_spec hinv hlock
  obtain ⟨m₁, hm₁⟩ : ∃ m₁, m₁ = ({ m with prefixCache := c' }.unlock r.req.cacheHandle).free
      (m.pageTable.row r.req.tableIdx r.req.cacheHandle.cachedLen k) := ⟨_, rfl⟩
  obtain ⟨hc₁, hp₁, hn₁, ht₁⟩ : m₁.prefixCache = c'.lockHandle r.req.cacheHandle true ∧
      m₁.pageSize = m.pageSize ∧ m₁.numPages = m.numPages ∧ m₁.pageTable = m.pageTable := by
    simp [hm₁, free, unlock]
  unfold cacheReq at heq
  simp only [hins, hslice, Bool.false_eq_true, if_false, ← hm₁] at heq
  obtain ⟨hm', rfl⟩ := Prod.mk.inj heq
  -- what the row names above the new handle is not touched by the re-pointing
  obtain ⟨t', ht', hoff, habove⟩ : ∃ t', m' = { m₁ with
        pageTable := t', prefixCache := m₁.prefixCache.lockHandle hd false } ∧
      (∀ i, i ≠ r.req.tableIdx → ∀ p, t' i p = m.pageTable i p) ∧
      ∀ p, hd.cachedLen ≤ p → t' r.req.tableIdx p = m.pageTable r.req.tableIdx p := by
    by_cases hlt : r.req.cacheHandle.cachedLen < k
    · rw [if_pos hlt] at hm'
      refine ⟨_, hm', fun i hi p => ?_, fun p hp => ?_⟩
      · rw [PageTable.write_of_ne hi, ht₁]
      · rw [PageTable.write_of_ge, ht₁]
        rw [List.length_drop, List.length_take]
        omega
    · rw [if_neg hlt] at hm'
      exact ⟨m₁.pageTable, hm', fun _ _ _ => by rw [ht₁], fun _ _ => by rw [ht₁]⟩
  have hcov : LiveReq.covered ⟨{ r.req with cacheHandle := hd }, r.pending⟩ = r.covered := rfl
  have hle : r.req.cachedLen ≤ r.covered := by
    unfold LiveReq.covered
    split
    · exact hl.lt.le
    · exact le_rfl
  have hlens : LiveReq.Lens m.pageSize ⟨{ r.req with cacheHandle := hd }, r.pending⟩ :=
    ⟨hdh, hk, hl.lt⟩
  rw [← hc₁] at hinv' hcount'
  refine ⟨hd, rfl, by rw [ht']; exact hinv', by rw [ht']; exact hp₁, by rw [ht']; exact hn₁, hnode',
    hk', hlens, by rw [ht']; exact hoff, fun x => ?_⟩
  have hspan : LiveReq.pages m.pageSize m'.pageTable ⟨{ r.req with cacheHandle := hd }, r.pending⟩ =
      rowPages m.pageSize m.pageTable r.req.tableIdx hd.cachedLen r.covered := by
    rw [ht']
    exact rowPages_congr hps hdh fun p hp _ => habove p hp
  have hkept : m'.kept x = m₁.kept x := by
    have := hcount' x
    rw [ht']
    simp only [kept, PageState.freePages, hp₁]
    omega
  rw [hspan, hkept, hm₁, hcount, LiveReq.pages, add_assoc, ← List.count_append,
    rowPages_append hps hd₀ hdh hk' (hk.trans hle)]
  rfl

theorem allocatePaged_spec (h : m.prefixCache.Inv m.pageSize handles)
    {reqs : List (Req RadixCacheHandle)} (ha : m.allocatePaged H reqs = some m') :
    ∃ pgs : List Slot, pgs.length = neededPages (allocationInfo m.pageSize reqs) ∧
      m'.prefixCache.Inv m.pageSize handles ∧ m'.pageSize = m.pageSize ∧
      m'.numPages = m.numPages ∧ m'.pageTable = writePageTable m.pageSize m.pageTable
        (pageToToken m.pageSize pgs) (allocationInfo m.pageSize reqs) ∧
      ∀ x, m.kept x = m'.kept x + pgs.count x := by
  unfold allocatePaged at ha
  simp only at ha
  split at ha
  · rw [Option.map_eq_some_iff] at ha
    obtain ⟨⟨m₁, pgs⟩, ha, rfl⟩ := ha
    obtain ⟨hinv, hps, hnp, htab, -, hlen, hkept⟩ := allocate_spec h ha
    refine ⟨pgs, hlen, hinv, hps, hnp, ?_, hkept⟩
    simp only [PageState.writePages, hps, htab]
  · next h0 =>
    have h0 := Nat.eq_zero_of_not_pos h0
    obtain rfl := Option.some.inj ha
    rw [allocationInfo_eq_nil h0]
    exact ⟨[], rfl, h, rfl, rfl, rfl, fun _ => rfl⟩

theorem tryAllocateOne_spec (hps : 0 < m.pageSize) (h : m.prefixCache.Inv m.pageSize handles)
    {tables tables' : TableManager}
    {res : Option (RadixCacheHandle × ℕ)}
    (heq : (m', tables', res) = m.tryAllocateOne tables reservedSize p tic) :
    m'.pageSize = m.pageSize ∧ m'.numPages = m.numPages ∧ (∀ x, m'.kept x = m.kept x) ∧
      match res with
      | none => tables' = tables ∧ m'.pageTable = m.pageTable ∧
          m'.prefixCache.Inv m.pageSize handles
      | some (hd, idx) => m'.prefixCache.Inv m.pageSize (hd :: handles) ∧
          tables.freeSlots.Perm (idx :: tables'.freeSlots) ∧
          hd.node = p.inputIds.take hd.cachedLen ∧ hd.cachedLen ≤ p.inputIds.length ∧
          ∀ i, i ≠ idx → ∀ q, m'.pageTable i q = m.pageTable i q := by
  unfold tryAllocateOne at heq
  split at heq
  · obtain ⟨rfl, rfl, rfl⟩ := by simpa using heq
    exact ⟨rfl, rfl, fun _ => rfl, rfl, rfl, h⟩
  · next tables₁ idx ht =>
    have hrow := TableManager.allocate_spec ht
    obtain ⟨c', hd, hmatch, hinv, hlock, hnode, hle, hcount⟩ := PrefixCache.matchPrefix_spec h hps
      (p.inputIds.take (p.inputIds.length - 1)) tic
    have hle' : hd.cachedLen ≤ p.inputIds.length - 1 := by
      rw [List.length_take] at hle
      omega
    rw [List.take_take, Nat.min_eq_left hle'] at hnode
    simp only [matchReq, hmatch] at heq
    split at heq
    · -- refused before the lock
      obtain ⟨rfl, rfl, rfl⟩ := by simpa using heq
      exact ⟨rfl, rfl, fun x => by simp [kept, hcount x, PageState.freePages], rfl, rfl, hinv⟩
    · obtain ⟨hinv', hcount'⟩ := PrefixCache.lock_spec hinv hlock
      split at heq
      · -- refused after the lock
        obtain ⟨rfl, rfl, rfl⟩ := by simpa using heq
        obtain ⟨hinv₂, -, hcount₂⟩ := PrefixCache.unlock_spec hinv' (.refl _)
        refine ⟨rfl, rfl, fun x => ?_, rfl, rfl, hinv₂⟩
        simp only [kept, unlock, lock, PageState.freePages, hcount₂ x, hcount' x, hcount x]
      · obtain ⟨rfl, rfl, rfl⟩ := by simpa using heq
        refine ⟨rfl, rfl, fun x => ?_, hinv', ?_, hnode, by omega, fun i hi q => ?_⟩
        · simp only [kept, lock, PageState.writeRow, PageState.freePages, hcount' x, hcount x]
        · exact hrow
        · exact PageTable.write_of_ne hi q

end CacheManager

/-! ### Runs of the manager -/

/-- A manager with the table rows and the requests that hold resources. -/
structure CacheSys where
  manager : CacheManager
  tables : TableManager
  reqs : List (LiveReq RadixCacheHandle) := []

def CacheSys.handles (s : CacheSys) : List RadixCacheHandle := s.reqs.map fun r => r.req.cacheHandle

def CacheSys.treePages (s : CacheSys) : List Slot := s.manager.prefixCache.pages s.manager.pageSize

/-- The uncommitted pages of the requests. -/
def CacheSys.rowPages (s : CacheSys) : List Slot :=
  s.reqs.flatMap (LiveReq.pages s.manager.pageSize s.manager.pageTable)

/-- The steps of the scheduler, in any order.  A request is admitted, or refused, or admitted and
at once given up; a chunked one goes on with its next chunk; the next extents of a batch are
allocated, and the forward pass completes them; a sampled token is appended; a request is
committed, or, finished or aborted, gives its resources back; frees are collected while results
are processed. -/
inductive CacheStep : CacheSys → CacheSys → Prop
  | admitted {m m' : CacheManager} {tables tables' : TableManager}
      {reqs : List (LiveReq RadixCacheHandle)} (p : PendingReq RadixCacheHandle)
      (reservedSize chunkSize : ℕ) (tic : ℤ) {hd : RadixCacheHandle} {idx : ℕ}
      {req : Req RadixCacheHandle}
      (ha : (m', tables', some (hd, idx)) = m.tryAllocateOne tables reservedSize p tic)
      (hc : p.chunk hd idx hd.cachedLen chunkSize = some req) :
      CacheStep ⟨m, tables, reqs⟩ ⟨m', tables', ⟨req, false⟩ :: reqs⟩
  | refuse {m m' : CacheManager} {tables tables' : TableManager}
      {reqs : List (LiveReq RadixCacheHandle)} (p : PendingReq RadixCacheHandle)
      (reservedSize : ℕ) (tic : ℤ)
      (ha : (m', tables', none) = m.tryAllocateOne tables reservedSize p tic) :
      CacheStep ⟨m, tables, reqs⟩ ⟨m', tables', reqs⟩
  | giveUp {m m' : CacheManager} {tables tables' : TableManager}
      {reqs : List (LiveReq RadixCacheHandle)} (p : PendingReq RadixCacheHandle)
      (reservedSize : ℕ) (tic : ℤ) {hd : RadixCacheHandle} {idx : ℕ}
      (ha : (m', tables', some (hd, idx)) = m.tryAllocateOne tables reservedSize p tic) :
      CacheStep ⟨m, tables, reqs⟩ ⟨m'.unlock hd, tables'.free idx, reqs⟩
  | nextChunk {m : CacheManager} {tables : TableManager}
      {reqs rest : List (LiveReq RadixCacheHandle)} {r : LiveReq RadixCacheHandle}
      (p : PendingReq RadixCacheHandle) (chunkSize : ℕ) {req : Req RadixCacheHandle}
      (hp : reqs.Perm (r :: rest)) (hpend : r.pending = false)
      (hids : r.req.inputIds <+: p.inputIds)
      (hc : p.chunk r.req.cacheHandle r.req.tableIdx r.req.cachedLen chunkSize = some req) :
      CacheStep ⟨m, tables, reqs⟩ ⟨m, tables, ⟨req, false⟩ :: rest⟩
  | allocatePaged {m m' : CacheManager} {tables : TableManager}
      {reqs batch rest : List (LiveReq RadixCacheHandle)} (H : Heapq timestamp)
      (hp : reqs.Perm (batch ++ rest)) (hpend : ∀ r ∈ batch, r.pending = false)
      (ha : m.allocatePaged H (batch.map LiveReq.req) = some m') :
      CacheStep ⟨m, tables, reqs⟩
        ⟨m', tables, (batch.map fun r => { r with pending := true }) ++ rest⟩
  | completeOne {m : CacheManager} {tables : TableManager}
      {reqs rest : List (LiveReq RadixCacheHandle)} {r : LiveReq RadixCacheHandle}
      (hp : reqs.Perm (r :: rest)) (hpend : r.pending = true) :
      CacheStep ⟨m, tables, reqs⟩ ⟨m, tables, ⟨r.req.completeOne, false⟩ :: rest⟩
  | appendHost {m : CacheManager} {tables : TableManager}
      {reqs rest : List (LiveReq RadixCacheHandle)} {r : LiveReq RadixCacheHandle}
      (nextToken : Token) {req : Req RadixCacheHandle} (hp : reqs.Perm (r :: rest))
      (ha : r.req.appendHost nextToken = some req) :
      CacheStep ⟨m, tables, reqs⟩ ⟨m, tables, ⟨req, r.pending⟩ :: rest⟩
  | cacheReq {m m' : CacheManager} {tables : TableManager}
      {reqs rest : List (LiveReq RadixCacheHandle)} {r : LiveReq RadixCacheHandle} (tic now : ℤ)
      {req : Req RadixCacheHandle} (hp : reqs.Perm (r :: rest))
      (hc : (m', req) = m.cacheReq r.req false tic now) :
      CacheStep ⟨m, tables, reqs⟩ ⟨m', tables, ⟨req, r.pending⟩ :: rest⟩
  | freeReqResources {m : CacheManager} {tables : TableManager}
      {reqs rest : List (LiveReq RadixCacheHandle)} {r : LiveReq RadixCacheHandle} (tic now : ℤ)
      (hp : reqs.Perm (r :: rest)) (hpend : r.pending = false) :
      CacheStep ⟨m, tables, reqs⟩
        ⟨(m.cacheReq r.req true tic now).1, tables.free r.req.tableIdx, rest⟩
  | enterLazyFree {m : CacheManager} {tables : TableManager}
      {reqs : List (LiveReq RadixCacheHandle)} (h : m.lazyFreeList = none) :
      CacheStep ⟨m, tables, reqs⟩
        ⟨{ m with toPageState := m.toPageState.enterLazyFree }, tables, reqs⟩
  | exitLazyFree {m : CacheManager} {tables : TableManager}
      {reqs : List (LiveReq RadixCacheHandle)} :
      CacheStep ⟨m, tables, reqs⟩
        ⟨{ m with toPageState := m.toPageState.exitLazyFree }, tables, reqs⟩

/-- The runs from an empty cache of either type, with any number of pages and rows. -/
inductive CacheRun (ps numPages maxRunningReqs : ℕ) : CacheSys → Prop
  | naive (pageTable : PageTable) : CacheRun ps numPages maxRunningReqs
      ⟨.init ps numPages pageTable .naive, .init maxRunningReqs, []⟩
  | radix (pageTable : PageTable) : CacheRun ps numPages maxRunningReqs
      ⟨.init ps numPages pageTable (.radix { pageSize := ps }), .init maxRunningReqs, []⟩
  | step {s s' : CacheSys} (h : CacheRun ps numPages maxRunningReqs s) (hs : CacheStep s s') :
      CacheRun ps numPages maxRunningReqs s'

structure CacheSys.Inv (s : CacheSys) : Prop where
  pageSize_pos : 0 < s.manager.pageSize
  cache : s.manager.prefixCache.Inv s.manager.pageSize s.handles
  rows : (s.tables.freeSlots ++ s.reqs.map fun r => r.req.tableIdx).Nodup
  lens : ∀ r ∈ s.reqs, r.Lens s.manager.pageSize
  node : ∀ r ∈ s.reqs,
    r.req.cacheHandle.node = r.req.inputIds.take r.req.cacheHandle.cachedLen
  ledger : LiveReq.Ledger s.manager.toPageState s.treePages s.reqs

variable {m m' : CacheManager} {tables tables' : TableManager}
  {reqs batch rest : List (LiveReq RadixCacheHandle)} {r r' : LiveReq RadixCacheHandle}
  {req : Req RadixCacheHandle}

namespace CacheSys.Inv

/-- The order of the requests does not matter. -/
theorem of_perm (h : Inv ⟨m, tables, reqs⟩) (hp : reqs.Perm rest) : Inv ⟨m, tables, rest⟩ where
  pageSize_pos := h.pageSize_pos
  cache := h.cache.of_perm (hp.map _)
  rows := ((hp.map _).append_left _).nodup_iff.mp h.rows
  lens q hq := h.lens q (hp.mem_iff.mpr hq)
  node q hq := h.node q (hp.mem_iff.mpr hq)
  ledger := h.ledger.of_perm hp

theorem row_ne (h : Inv ⟨m, tables, r :: rest⟩) {q : LiveReq RadixCacheHandle} (hq : q ∈ rest) :
    q.req.tableIdx ≠ r.req.tableIdx := by
  have := (List.nodup_append.mp h.rows).2.1
  rw [List.map_cons, List.nodup_cons] at this
  exact fun heq => this.1 (heq ▸ List.mem_map_of_mem hq)

theorem count (h : Inv ⟨m, tables, reqs⟩) (x : Slot) :
    m.kept x + (reqs.flatMap (LiveReq.pages m.pageSize m.pageTable)).count x =
      ((List.range m.numPages).map (· * m.pageSize)).count x :=
  LiveReq.ledger_iff.mp h.ledger x

theorem replace (h : Inv ⟨m, tables, r :: rest⟩) (ht : r'.req.tableIdx = r.req.tableIdx)
    (hh : r'.req.cacheHandle = r.req.cacheHandle) (hc : r'.covered = r.covered)
    (hl : r'.Lens m.pageSize)
    (hn : r'.req.cacheHandle.node = r'.req.inputIds.take r'.req.cacheHandle.cachedLen) :
    Inv ⟨m, tables, r' :: rest⟩ where
  pageSize_pos := h.pageSize_pos
  cache := by
    have := h.cache
    simp only [CacheSys.handles, List.map_cons, hh] at this ⊢
    exact this
  rows := by
    have := h.rows
    simp only [List.map_cons, ht] at this ⊢
    exact this
  lens := List.forall_mem_cons.mpr ⟨hl, (List.forall_mem_cons.mp h.lens).2⟩
  node := List.forall_mem_cons.mpr ⟨hn, (List.forall_mem_cons.mp h.node).2⟩
  ledger := by
    have hpg : r'.pages m.pageSize m.pageTable = r.pages m.pageSize m.pageTable := by
      rw [LiveReq.pages, LiveReq.pages, ht, hh, hc]
    have := h.ledger
    simp only [LiveReq.Ledger, List.flatMap_cons, hpg] at this ⊢
    exact this

theorem flatMap_pages_rest (h : Inv ⟨m, tables, r :: rest⟩) {t' : PageTable}
    (ht : ∀ i, i ≠ r.req.tableIdx → ∀ p, t' i p = m.pageTable i p) :
    rest.flatMap (LiveReq.pages m.pageSize t') =
      rest.flatMap (LiveReq.pages m.pageSize m.pageTable) :=
  LiveReq.flatMap_pages_congr h.pageSize_pos (List.forall_mem_cons.mp h.lens).2
    fun _ hq => ht _ (h.row_ne hq)

theorem admitted (h : Inv ⟨m, tables, reqs⟩) {p : PendingReq RadixCacheHandle}
    {reservedSize chunkSize : ℕ} {tic : ℤ} {hd : RadixCacheHandle} {idx : ℕ}
    {req : Req RadixCacheHandle}
    (ha : (m', tables', some (hd, idx)) = m.tryAllocateOne tables reservedSize p tic)
    (hc : p.chunk hd idx hd.cachedLen chunkSize = some req) :
    Inv ⟨m', tables', ⟨req, false⟩ :: reqs⟩ := by
  have hpos : 0 < m.pageSize := h.pageSize_pos
  have hcache : m.prefixCache.Inv m.pageSize (reqs.map fun r => r.req.cacheHandle) := h.cache
  obtain ⟨hps, hnp, hkept, hinv, hrow, hnode, hle, htab⟩ :=
    CacheManager.tryAllocateOne_spec hpos hcache ha
  obtain ⟨hlt, rfl⟩ := Req.create_spec hc
  have hd₁ := (PrefixCache.Inv.handle hinv List.mem_cons_self).1
  have hrows := (hrow.append_right (reqs.map fun r => r.req.tableIdx)).nodup_iff.mp h.rows
  have hfresh : ∀ q ∈ reqs, q.req.tableIdx ≠ idx := fun q hq heq => by
    rw [List.cons_append, List.nodup_cons] at hrows
    exact hrows.1 (List.mem_append_right _ (heq ▸ List.mem_map_of_mem hq))
  refine ⟨hps ▸ h.pageSize_pos, hps ▸ hinv, ?_, ?_, ?_, ?_⟩
  · exact List.perm_middle.nodup_iff.mpr hrows
  · rw [hps]
    exact List.forall_mem_cons.mpr ⟨⟨hd₁, le_rfl, hlt⟩, h.lens⟩
  · refine List.forall_mem_cons.mpr ⟨?_, h.node⟩
    simp only [List.take_take, Nat.min_eq_left (Nat.le_add_right hd.cachedLen chunkSize)]
    exact hnode
  · refine LiveReq.ledger_iff.mpr fun x => ?_
    have h₁ := h.count x
    have h₂ := hkept x
    have hnew : LiveReq.pages m.pageSize m'.pageTable
        ⟨{ inputIds := p.inputIds.take (hd.cachedLen + chunkSize), tableIdx := idx
           cachedLen := hd.cachedLen, outputLen := p.outputLen, uid := p.uid, cacheHandle := hd
           deviceLen := (p.inputIds.take (hd.cachedLen + chunkSize)).length
           maxDeviceLen := (p.inputIds.take (hd.cachedLen + chunkSize)).length + p.outputLen
           chunked := chunkSize < p.inputLen - hd.cachedLen }, false⟩ = [] :=
      rowPages_self h.pageSize_pos hd₁
    rw [hps, hnp, List.flatMap_cons, hnew, List.nil_append,
      LiveReq.flatMap_pages_congr h.pageSize_pos h.lens fun q hq => htab _ (hfresh q hq)]
    rw [CacheManager.kept, hps] at h₂
    simp only [CacheSys.treePages, hps]
    omega

theorem refuse (h : Inv ⟨m, tables, reqs⟩)
    (ha : (m', tables', none) = m.tryAllocateOne tables reservedSize p tic) :
    Inv ⟨m', tables', reqs⟩ := by
  have hpos : 0 < m.pageSize := h.pageSize_pos
  have hcache : m.prefixCache.Inv m.pageSize (reqs.map fun r => r.req.cacheHandle) := h.cache
  obtain ⟨hps, hnp, hkept, rfl, htab, hinv⟩ := CacheManager.tryAllocateOne_spec hpos hcache ha
  refine ⟨hps ▸ hpos, hps ▸ hinv, h.rows, hps ▸ h.lens, h.node, ?_⟩
  refine LiveReq.ledger_iff.mpr fun x => ?_
  have h₁ := h.count x
  have h₂ := hkept x
  rw [CacheManager.kept, hps] at h₂
  simp only [CacheSys.treePages, hps, hnp, htab]
  omega

theorem giveUp (h : Inv ⟨m, tables, reqs⟩) {hd : RadixCacheHandle} {idx : ℕ}
    (ha : (m', tables', some (hd, idx)) = m.tryAllocateOne tables reservedSize p tic) :
    Inv ⟨m'.unlock hd, tables'.free idx, reqs⟩ := by
  have hpos : 0 < m.pageSize := h.pageSize_pos
  have hcache : m.prefixCache.Inv m.pageSize (reqs.map fun r => r.req.cacheHandle) := h.cache
  obtain ⟨hps, hnp, hkept, hinv, hrow, -, -, htab⟩ :=
    CacheManager.tryAllocateOne_spec hpos hcache ha
  obtain ⟨hinv', -, hcount⟩ := PrefixCache.unlock_spec hinv (.refl _)
  have hps' : (m'.unlock hd).pageSize = m.pageSize := hps
  have hrows := (hrow.append_right (reqs.map fun r => r.req.tableIdx)).nodup_iff.mp h.rows
  have hfresh : ∀ q ∈ reqs, q.req.tableIdx ≠ idx := fun q hq heq => by
    rw [List.cons_append, List.nodup_cons] at hrows
    exact hrows.1 (List.mem_append_right _ (heq ▸ List.mem_map_of_mem hq))
  refine ⟨hps' ▸ hpos, hps' ▸ hinv', ?_, hps' ▸ h.lens, h.node, ?_⟩
  · have hback : tables.freeSlots.Perm (tables'.free idx).freeSlots :=
      hrow.trans (List.perm_append_singleton idx _).symm
    exact (hback.append_right _).nodup_iff.mp h.rows
  · refine LiveReq.ledger_iff.mpr fun x => ?_
    have h₁ := h.count x
    have h₂ := hkept x
    have h₃ := hcount x
    have hpg := LiveReq.flatMap_pages_congr hpos h.lens fun q hq => htab _ (hfresh q hq)
    rw [CacheManager.kept, hps] at h₂
    simp only [CacheSys.treePages, CacheManager.kept, CacheManager.unlock, hps, hnp, hpg,
      PageState.freePages] at h₁ h₂ ⊢
    omega

theorem nextChunk (h : Inv ⟨m, tables, r :: rest⟩) (hpend : r.pending = false) {chunkSize : ℕ}
    (hids : r.req.inputIds <+: p.inputIds)
    (hc : p.chunk r.req.cacheHandle r.req.tableIdx r.req.cachedLen chunkSize = some req) :
    Inv ⟨m, tables, ⟨req, false⟩ :: rest⟩ := by
  obtain ⟨hlt, rfl⟩ := Req.create_spec hc
  obtain ⟨hd, hle, -⟩ := (List.forall_mem_cons.mp h.lens).1
  have hnode := (List.forall_mem_cons.mp h.node).1
  have hlen := (h.cache.handle (List.mem_cons_self : r.req.cacheHandle ∈ r.req.cacheHandle :: _)).2
  have hle' : r.req.cacheHandle.cachedLen ≤ r.req.cachedLen := hle
  refine h.replace rfl rfl ?_ ⟨hd, hle, hlt⟩ ?_
  · simp [LiveReq.covered, hpend]
  · -- the chunk extends the tokens of the request, and with them its cached prefix
    simp only [List.take_take, Nat.min_eq_left (hle'.trans (Nat.le_add_right _ chunkSize))]
    have hshort : r.req.cacheHandle.cachedLen ≤ r.req.inputIds.length := by
      have := congrArg List.length hnode
      rw [hlen, List.length_take] at this
      omega
    obtain ⟨l, hl⟩ := hids
    rw [← hl, List.take_append_of_le_length hshort]
    exact hnode

theorem completeOne (h : Inv ⟨m, tables, r :: rest⟩) (hpend : r.pending = true) :
    Inv ⟨m, tables, ⟨r.req.completeOne, false⟩ :: rest⟩ := by
  obtain ⟨hd, hle, hlt⟩ := (List.forall_mem_cons.mp h.lens).1
  refine h.replace rfl rfl ?_ ⟨hd, hle.trans hlt.le, Nat.lt_succ_self _⟩
    (List.forall_mem_cons.mp h.node).1
  simp [LiveReq.covered, hpend, Req.completeOne]

theorem appendHost (h : Inv ⟨m, tables, r :: rest⟩) {nextToken : Token}
    (ha : r.req.appendHost nextToken = some req) :
    Inv ⟨m, tables, ⟨req, r.pending⟩ :: rest⟩ := by
  obtain ⟨hd, hle, hlt⟩ := (List.forall_mem_cons.mp h.lens).1
  have hnode := (List.forall_mem_cons.mp h.node).1
  have hlen := (h.cache.handle (List.mem_cons_self : r.req.cacheHandle ∈ r.req.cacheHandle :: _)).2
  obtain rfl := Req.appendHost_spec ha
  refine h.replace rfl rfl rfl ⟨hd, hle, hlt⟩ ?_
  have hshort : r.req.cacheHandle.cachedLen ≤ r.req.inputIds.length := by
    have := congrArg List.length hnode
    rw [hlen, List.length_take] at this
    omega
  simp only [List.take_append_of_le_length hshort]
  exact hnode

/-- **Allocating a batch.** -/
theorem allocatePaged (h : Inv ⟨m, tables, batch ++ rest⟩) {H : Heapq timestamp}
    (hpend : ∀ r ∈ batch, r.pending = false)
    (ha : m.allocatePaged H (batch.map LiveReq.req) = some m') :
    Inv ⟨m', tables, (batch.map fun r => { r with pending := true }) ++ rest⟩ := by
  have hpos : 0 < m.pageSize := h.pageSize_pos
  have hcache : m.prefixCache.Inv m.pageSize
      ((batch ++ rest).map fun r => r.req.cacheHandle) := h.cache
  have hlb : ∀ r ∈ batch, r.Lens m.pageSize := fun r hr => h.lens r (List.mem_append_left _ hr)
  have hlr : ∀ r ∈ rest, r.Lens m.pageSize := fun r hr => h.lens r (List.mem_append_right _ hr)
  have hnd := (List.nodup_append.mp h.rows).2.1
  rw [List.map_append, List.nodup_append] at hnd
  obtain ⟨pgs, hlen, hinv, hps, hnp, htab, hkept⟩ :=
    CacheManager.allocatePaged_spec hcache ha
  obtain ⟨hother, -, -⟩ := writePageTable_spec hpos (batch.map LiveReq.req) m.pageTable pgs
    (by rw [List.map_map]; exact hnd.1) hlen
  rw [← htab] at hother
  refine ⟨hps ▸ hpos, ?_, ?_, ?_, ?_, ?_⟩
  · rw [hps, CacheSys.handles, List.map_append, List.map_map]
    rw [List.map_append] at hinv
    exact hinv
  · have := h.rows
    rw [List.map_append] at this ⊢
    rwa [List.map_map]
  · rw [hps]
    intro q hq
    rcases List.mem_append.mp hq with hq | hq
    · obtain ⟨r, hr, rfl⟩ := List.mem_map.mp hq
      exact ⟨(hlb r hr).dvd, (hlb r hr).le, (hlb r hr).lt⟩
    · exact hlr q hq
  · intro q hq
    rcases List.mem_append.mp hq with hq | hq
    · obtain ⟨r, hr, rfl⟩ := List.mem_map.mp hq
      exact h.node r (List.mem_append_left _ hr)
    · exact h.node q (List.mem_append_right _ hq)
  · refine LiveReq.ledger_iff.mpr fun x => ?_
    -- pages leave the free list for the rows of the batch, and only for those
    have h₁ := h.count x
    have h₂ := hkept x
    have h₃ := LiveReq.count_flatMap_pages_allocate hpos hlb hpend hnd.1 hlen htab x
    have h₄ : rest.flatMap (LiveReq.pages m.pageSize m'.pageTable) =
        rest.flatMap (LiveReq.pages m.pageSize m.pageTable) := by
      refine LiveReq.flatMap_pages_congr hpos hlr fun q hq p => hother _ (fun hmem => ?_) p
      rw [List.map_map] at hmem
      exact hnd.2.2 _ hmem _ (List.mem_map_of_mem hq) rfl
    rw [List.flatMap_append, List.count_append] at h₁ ⊢
    simp only [CacheSys.treePages, CacheManager.kept, hps, hnp, h₄] at h₁ h₂ ⊢
    omega

/-- **Committing an unfinished request.** -/
theorem cacheReq (h : Inv ⟨m, tables, r :: rest⟩) {tic now : ℤ} {req : Req RadixCacheHandle}
    (hc : (m', req) = m.cacheReq r.req false tic now) :
    Inv ⟨m', tables, ⟨req, r.pending⟩ :: rest⟩ := by
  have hpos : 0 < m.pageSize := h.pageSize_pos
  have hcache : m.prefixCache.Inv m.pageSize
      (r.req.cacheHandle :: rest.map fun r => r.req.cacheHandle) := h.cache
  obtain ⟨hl, hlr⟩ := List.forall_mem_cons.mp h.lens
  obtain ⟨hn, hnr⟩ := List.forall_mem_cons.mp h.node
  obtain ⟨hd, rfl, hinv, hps, hnp, hnode, -, hlens, htab, hcount⟩ :=
    CacheManager.cacheReq_unfinished_spec hpos hcache (.refl _) hl hn tic now hc
  refine ⟨hps ▸ hpos, hps ▸ hinv, h.rows, hps ▸ List.forall_mem_cons.mpr ⟨hlens, hlr⟩,
    List.forall_mem_cons.mpr ⟨hnode, hnr⟩, LiveReq.ledger_iff.mpr fun x => ?_⟩
  have h₁ := h.count x
  have h₂ := hcount x
  have h₃ := h.flatMap_pages_rest htab
  rw [List.flatMap_cons, List.count_append] at h₁ ⊢
  simp only [CacheSys.treePages, CacheManager.kept, hps, hnp, h₃] at h₁ h₂ ⊢
  omega

/-- **Giving back the resources** of a finished or aborted request. -/
theorem freeReqResources (h : Inv ⟨m, tables, r :: rest⟩) (hpend : r.pending = false)
    {tic now : ℤ} (hc : m' = (m.cacheReq r.req true tic now).1) :
    Inv ⟨m', tables.free r.req.tableIdx, rest⟩ := by
  have hpos : 0 < m.pageSize := h.pageSize_pos
  have hcache : m.prefixCache.Inv m.pageSize
      (r.req.cacheHandle :: rest.map fun r => r.req.cacheHandle) := h.cache
  obtain ⟨hl, hlr⟩ := List.forall_mem_cons.mp h.lens
  obtain ⟨hn, hnr⟩ := List.forall_mem_cons.mp h.node
  obtain ⟨hinv, hps, hnp, htab, hcount⟩ :=
    CacheManager.cacheReq_finished_spec hpos hcache (.refl _) hl hn hpend tic now hc
  refine ⟨hps ▸ hpos, hps ▸ hinv, ?_, hps ▸ hlr, hnr, LiveReq.ledger_iff.mpr fun x => ?_⟩
  · have := h.rows
    simpa [TableManager.free] using this
  · have h₁ := h.count x
    have h₂ := hcount x
    rw [List.flatMap_cons, List.count_append] at h₁
    simp only [CacheSys.treePages, CacheManager.kept, hps, hnp, htab] at h₁ h₂ ⊢
    omega

end CacheSys.Inv

/-- **Every step keeps the invariant**, the page size and the number of pages. -/
theorem CacheStep.inv {s s' : CacheSys} (hs : CacheStep s s') (h : s.Inv) : s'.Inv := by
  cases hs with
  | admitted p reservedSize chunkSize tic ha hc => exact h.admitted ha hc
  | refuse p reservedSize tic ha => exact h.refuse ha
  | giveUp p reservedSize tic ha => exact h.giveUp ha
  | nextChunk p chunkSize hp hpend hids hc => exact (h.of_perm hp).nextChunk hpend hids hc
  | allocatePaged H hp hpend ha => exact (h.of_perm hp).allocatePaged hpend ha
  | completeOne hp hpend => exact (h.of_perm hp).completeOne hpend
  | appendHost nextToken hp ha => exact (h.of_perm hp).appendHost ha
  | cacheReq tic now hp hc => exact (h.of_perm hp).cacheReq hc
  | freeReqResources tic now hp hpend => exact (h.of_perm hp).freeReqResources hpend rfl
  | enterLazyFree hnone =>
    refine ⟨h.pageSize_pos, h.cache, h.rows, h.lens, h.node, ?_⟩
    have := h.ledger
    simp only [LiveReq.Ledger, PageState.freePages, hnone] at this ⊢
    exact this
  | exitLazyFree =>
    refine ⟨h.pageSize_pos, h.cache, h.rows, h.lens, h.node, ?_⟩
    have := h.ledger
    simp only [LiveReq.Ledger, PageState.freePages] at this ⊢
    simpa [PageState.exitLazyFree, CacheSys.treePages] using this

theorem CacheStep.sizes {s s' : CacheSys} (hs : CacheStep s s') (h : s.Inv) :
    s'.manager.pageSize = s.manager.pageSize ∧ s'.manager.numPages = s.manager.numPages := by
  cases hs with
  | admitted p reservedSize chunkSize tic ha hc =>
    obtain ⟨hps, hnp, -⟩ := CacheManager.tryAllocateOne_spec h.pageSize_pos h.cache ha
    exact ⟨hps, hnp⟩
  | refuse p reservedSize tic ha =>
    obtain ⟨hps, hnp, -⟩ := CacheManager.tryAllocateOne_spec h.pageSize_pos h.cache ha
    exact ⟨hps, hnp⟩
  | giveUp p reservedSize tic ha =>
    obtain ⟨hps, hnp, -⟩ := CacheManager.tryAllocateOne_spec h.pageSize_pos h.cache ha
    exact ⟨hps, hnp⟩
  | allocatePaged H hp hpend ha =>
    obtain ⟨-, -, -, hps, hnp, -⟩ := CacheManager.allocatePaged_spec h.cache ha
    exact ⟨hps, hnp⟩
  | @cacheReq m m' tables reqs rest r tic now req hp hc =>
    have h := h.of_perm hp
    obtain ⟨hd, -, -, hps, hnp, -⟩ := CacheManager.cacheReq_unfinished_spec h.pageSize_pos h.cache
      (.refl _) (List.forall_mem_cons.mp h.lens).1 (List.forall_mem_cons.mp h.node).1 tic now hc
    exact ⟨hps, hnp⟩
  | @freeReqResources m tables reqs rest r tic now hp hpend =>
    have h := h.of_perm hp
    obtain ⟨-, hps, hnp, -⟩ := CacheManager.cacheReq_finished_spec h.pageSize_pos h.cache
      (.refl _) (List.forall_mem_cons.mp h.lens).1 (List.forall_mem_cons.mp h.node).1 hpend tic now
      rfl
    exact ⟨hps, hnp⟩
  | nextChunk | completeOne | appendHost | enterLazyFree | exitLazyFree => exact ⟨rfl, rfl⟩

theorem CacheRun.inv {numPages maxRunningReqs : ℕ} {s : CacheSys} (hps : 0 < ps)
    (h : CacheRun ps numPages maxRunningReqs s) :
    s.Inv ∧ s.manager.pageSize = ps ∧ s.manager.numPages = numPages := by
  have hrows : ((TableManager.init maxRunningReqs).freeSlots ++ []).Nodup := by
    rw [List.append_nil]
    exact List.nodup_range
  induction h with
  | naive pageTable =>
    refine ⟨⟨hps, by simp [CacheSys.handles, CacheManager.init, PrefixCache.Inv], hrows, by simp,
      by simp, ?_⟩, rfl, rfl⟩
    simp [LiveReq.Ledger, PageState.freePages, CacheManager.init, PageState.init,
      CacheSys.treePages, PrefixCache.pages]
  | radix pageTable =>
    refine ⟨⟨hps, ⟨rfl, kvInv_nil hps, by simp [CacheSys.handles]⟩, hrows, by simp, by simp, ?_⟩,
      rfl, rfl⟩
    simp [LiveReq.Ledger, PageState.freePages, CacheManager.init, PageState.init,
      CacheSys.treePages, PrefixCache.pages, FreeToken.treePages]
  | step _ hs ih =>
    obtain ⟨hinv, hp, hn⟩ := ih
    obtain ⟨hp', hn'⟩ := hs.sizes hinv
    exact ⟨hs.inv hinv, hp'.trans hp, hn'.trans hn⟩

theorem PrefixCache.Inv.length_pages {c : PrefixCache} {handles : List RadixCacheHandle}
    (h : c.Inv ps handles) (hps : 0 < ps) :
    c.sizeInfo.evictable + c.sizeInfo.protectedSize = (c.pages ps).length * ps := by
  cases c with
  | naive => simp [sizeInfo, pages]
  | radix c =>
    obtain ⟨rfl, hinv, -⟩ := h
    simp only [sizeInfo, pages]
    rw [hinv.evictable, hinv.protectedSize, ← total_add]
    have hlen : ∀ nodes : List RadixTreeNode, (∀ n ∈ nodes, c.pageSize ∣ n.value.length) →
        (((treePages c.pageSize nodes).length * c.pageSize : ℕ) : ℤ) =
          total (fun n => (n.value.length : ℤ)) nodes := by
      intro nodes
      induction nodes with
      | nil => intro _; simp [treePages]
      | cons n nodes ih =>
        intro hd
        have h₁ := divCeil_mul_eq_self hps (hd n List.mem_cons_self)
        rw [total_cons, ← ih fun m hm => hd m (List.mem_cons_of_mem n hm), treePages,
          List.flatMap_cons, List.length_append, length_stride hps, add_mul, h₁]
        push_cast
        rfl
    rw [← Nat.cast_mul, hlen c.nodes fun n hn => hinv.wf.dvd_value hn]
    refine total_congr fun n hn => ?_
    rw [hinv.wf.value_len n hn, evictableTokens, protectedTokens]
    split <;> simp [RadixTreeNode.length]

/-- **Every page is in one place at any time.**  In every run of the plain manager, over the naive
or the radix cache, the free pages (those freed lazily included), the pages of the tree nodes and
the pages of the uncommitted spans of the live requests are all the pages, each once; and when no
request is live, the free and the cached pages are all there are. -/
theorem cacheManager_conserves_pages {numPages maxRunningReqs : ℕ} {s : CacheSys} (hps : 0 < ps)
    (h : CacheRun ps numPages maxRunningReqs s) :
    (s.manager.freePages ++ s.treePages ++ s.rowPages).Perm ((List.range numPages).map (· * ps)) ∧
      (s.manager.freePages ++ s.treePages ++ s.rowPages).Nodup ∧
      (s.reqs = [] → (s.manager.freePages.length : ℤ) + (s.manager.prefixCache.sizeInfo.evictable +
        s.manager.prefixCache.sizeInfo.protectedSize) / ps = numPages) := by
  obtain ⟨hinv, hp, hn⟩ := h.inv hps
  have hled : (s.manager.freePages ++ s.treePages ++ s.rowPages).Perm
      ((List.range numPages).map (· * ps)) := by
    have := hinv.ledger
    unfold LiveReq.Ledger at this
    rw [hn, hp] at this
    rw [CacheSys.rowPages, hp]
    exact this
  refine ⟨hled, hled.nodup_iff.mpr (List.nodup_range.map fun a b hab => ?_), fun hr => ?_⟩
  · exact Nat.eq_of_mul_eq_mul_right hps hab
  · have hlen := hled.length_eq
    have hrow : s.rowPages = [] := by rw [CacheSys.rowPages, hr, List.flatMap_nil]
    rw [hrow, List.append_nil, List.length_append, List.length_map, List.length_range,
      CacheSys.treePages, hp] at hlen
    have hcache : s.manager.prefixCache.Inv ps s.handles := hp ▸ hinv.cache
    rw [hcache.length_pages hps, Int.mul_ediv_cancel _ (by omega)]
    omega

/-- A prompt of one page and a half, prefilled and committed. -/
theorem cacheManager_conserves_pages_run :
    ∃ s : CacheSys, s.manager.freePages = [4] ∧ s.treePages = [0] ∧ s.rowPages = [2] ∧
      (s.manager.freePages ++ s.treePages ++ s.rowPages).Nodup := by
  let p : PendingReq RadixCacheHandle := { uid := 0, inputIds := [5, 6, 7], outputLen := 2 }
  let req : Req RadixCacheHandle := ⟨[5, 6, 7], 0, 0, 2, 0, ⟨0, []⟩, 3, 5, false, none, none, 0,
    none, none, 0, 0, none, [], false⟩
  let m₁ := ((CacheManager.init 2 3 (fun _ _ => 0) (.radix { pageSize := 2 })).tryAllocateOne
    (.init 1) 0 p 1).1
  let m₂ := (m₁.allocatePaged (.ofScan timestamp) [req]).getD m₁
  have hm₂ : m₁.allocatePaged (.ofScan timestamp) [req] = some m₂ :=
    Option.eq_some_iff_get_eq.mpr ⟨by decide, Option.get_eq_getD _⟩
  have h₁ : CacheRun 2 3 1 ⟨m₁, ⟨[]⟩, [⟨req, false⟩]⟩ :=
    .step (.radix fun _ _ => 0)
      (@CacheStep.admitted _ m₁ _ ⟨[]⟩ _ p 0 3 1 ⟨0, []⟩ 0 req (Prod.ext rfl (by decide))
        (by decide))
  have h₂ : CacheRun 2 3 1 ⟨m₂, ⟨[]⟩, [⟨req, true⟩]⟩ :=
    .step h₁ (@CacheStep.allocatePaged _ m₂ _ _ [⟨req, false⟩] [] (.ofScan timestamp) (.refl _)
      (by simp) hm₂)
  have h₃ : CacheRun 2 3 1 ⟨m₂, ⟨[]⟩, [⟨req.completeOne, false⟩]⟩ :=
    .step h₂ (.completeOne (.refl _) rfl)
  have h₄ : CacheRun 2 3 1 ⟨(m₂.cacheReq req.completeOne false 2 3).1, ⟨[]⟩,
      [⟨(m₂.cacheReq req.completeOne false 2 3).2, false⟩]⟩ :=
    .step h₃ (.cacheReq 2 3 (.refl _) rfl)
  exact ⟨_, by decide, by decide, by decide, (cacheManager_conserves_pages (by decide) h₄).2.1⟩

end FreeToken
