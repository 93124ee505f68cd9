import FreeToken.KvCache.Equiv.HybridRadixCache
import FreeToken.KvCache.Equiv.SWARadixCache
import FreeToken.Scheduler.Equiv.CacheCount
import FreeToken.Scheduler.TreeCache

/-!
# The pages of the managers with a second currency

The cache managers under `is_hybrid` and `is_swa` are cache managers whose pages can be counted:
what the second currency does to the pages gives back every page it takes out of the tree.

* `HybridCacheManager.Ok`, `SWACacheManager.Ok`: the invariants.
* `cacheManager_allocates`: in every run over any of the three managers, `_allocate` never fails.
-/

namespace FreeToken

open List Option TrieEdge RadixTreeNode HybridRadixCache

variable {ps : ℕ} {nodes nodes' : List RadixTreeNode} {s : PageState}

/-! ### The pages of a tree -/

/-- The pages that are free, freed lazily or in the tree. -/
def keptPages (s : PageState) (nodes : List RadixTreeNode) : ℕ :=
  s.freePages.length + (valuesOf nodes).length / s.pageSize

variable {l : List Slot}

/-- What is counted slot by slot is counted. -/
theorem length_valuesOf_add {l' : List Slot}
    (h : ∀ x, total (slotCount x) nodes' + (l.count x : ℕ) =
    total (slotCount x) nodes + (l'.count x : ℕ)) :
    (valuesOf nodes').length + l.length = (valuesOf nodes).length + l'.length := by
  rw [← List.length_append]
  refine length_eq_add_of_count fun x => ?_
  have hx := h x
  rw [← count_valuesOf, ← count_valuesOf] at hx
  rw [count_append]
  exact_mod_cast hx

theorem length_valuesOf_sub
    (h : ∀ x, total (slotCount x) nodes' + (l.count x : ℕ) = total (slotCount x) nodes) :
    (valuesOf nodes').length + l.length = (valuesOf nodes).length := by
  have hlen : _ + l.length = (valuesOf nodes).length + [].length :=
    length_valuesOf_add fun x => (h x).trans (add_zero _).symm
  exact hlen

theorem length_valuesOf_congr (h : ∀ x, total (slotCount x) nodes' = total (slotCount x) nodes) :
    (valuesOf nodes').length = (valuesOf nodes).length :=
  length_valuesOf_sub (l := []) fun x => (add_zero _).trans (h x)

theorem length_valuesOf_sameCore (h : SameCore nodes nodes') :
    (valuesOf nodes').length = (valuesOf nodes).length :=
  length_valuesOf_congr fun _ => h.total_eq fun _ => rfl

variable {rs : List RadixTreeNode}

theorem dvd_tokensOf (h : ∀ n ∈ rs, ps ∣ n.key.length) : ps ∣ tokensOf rs := by
  induction rs with
  | nil => exact dvd_zero ps
  | cons n rs ih =>
    rw [tokensOf_cons]
    exact Nat.dvd_add (h n List.mem_cons_self) (ih fun m hm => h m (List.mem_cons_of_mem _ hm))

theorem total_tokens (rs : List RadixTreeNode) :
    total (fun n => evictableTokens n + protectedTokens n) rs = tokensOf rs := by
  induction rs with
  | nil => rfl
  | cons n rs ih =>
    have hn : evictableTokens n + protectedTokens n = n.length := by
      unfold evictableTokens protectedTokens
      split <;> simp
    rw [total_cons, ih, hn, tokensOf_cons, Nat.cast_add]

theorem Removes.length_valuesOf (hr : Removes nodes rs nodes')
    (h : WF ps nodes) :
    (valuesOf nodes').length + (valuesOf rs).length = (valuesOf nodes).length :=
  length_valuesOf_sub fun x => by
    rw [hr.total_eq h, count_valuesOf, sub_add_cancel]

theorem WF.dvd_length_valuesOf (h : WF ps nodes) : ps ∣ (valuesOf nodes).length := by
  rw [length_valuesOf h.value_len]
  exact dvd_tokensOf h.trie.dvd_key

theorem length_freePages_free (s : PageState) (l : List Slot) :
    (s.free l).freePages.length = s.freePages.length + (stride s.pageSize l).length := by
  rw [(s.freePages_free l).length_eq, List.length_append]

theorem PageState.length_freePages_append :
    ({ s with freeSlots := s.freeSlots ++ l } : PageState).freePages.length =
      s.freePages.length + l.length := by
  unfold freePages
  rw [List.length_append, List.length_append, List.length_append, add_right_comm]

theorem PageState.free_closed (h : s.lazyFreeList = none) :
    (s.free l).lazyFreeList = none := by
  unfold free
  rw [h]

theorem div_add_le_of_slots (hps : 0 < ps) {V V' g f : ℕ} (hV : ps ∣ V) (hV' : ps ∣ V')
    (h : V + g ≤ V' + f) : V / ps + g / ps ≤ V' / ps + divCeil f ps := by
  obtain ⟨a, rfl⟩ := hV
  obtain ⟨b, rfl⟩ := hV'
  rw [Nat.mul_div_cancel_left a hps, Nat.mul_div_cancel_left b hps]
  have hf := le_divCeil_mul (a := f) hps
  have hg := Nat.div_mul_le_self g ps
  refine Nat.le_of_mul_le_mul_right (c := ps) ?_ hps
  rw [add_mul, add_mul, Nat.mul_comm a, Nat.mul_comm b]
  omega

variable {n : ℕ}

/-- A sequence of `n` tokens, the first `p` of which are in the tree already, adds the pages behind
an aligned start. -/
theorem sub_div_le_of_dvd {k old p : ℕ} (hold : ps ∣ old) (hk : k ≤ n) (hp : p ≤ alignDown n ps) :
    k / ps - old / ps ≤ (alignDown n ps - p + (p - old)) / ps := by
  rcases Nat.eq_zero_or_pos ps with rfl | hps
  · simp
  obtain ⟨q, rfl⟩ := hold
  have hn : alignDown n ps - ps * q ≤ alignDown n ps - p + (p - ps * q) := by omega
  refine le_trans ?_ (Nat.div_le_div_right hn)
  rw [Nat.sub_mul_div, Nat.mul_div_cancel_left q hps, alignDown, Nat.mul_div_cancel _ hps]
  exact Nat.sub_le_sub_right (Nat.div_le_div_right hk) q

variable {s' : PageState}

/-- **Freeing what has left the tree gives its pages back.** -/
theorem keptPages_eq_of_freed (hs' : s'.pageSize = s.pageSize)
    (hfree : s'.freePages.length = s.freePages.length + (stride s.pageSize l).length)
    (hw : WF s.pageSize nodes) (hw' : WF s.pageSize nodes')
    (h : (valuesOf nodes').length + l.length = (valuesOf nodes).length) :
    keptPages s' nodes' = keptPages s nodes := by
  have hps := hw.trie.page_pos
  obtain ⟨a, ha⟩ := hw.dvd_length_valuesOf
  obtain ⟨b, hb⟩ := hw'.dvd_length_valuesOf
  have hl : l.length = (a - b) * s.pageSize := by
    rw [Nat.sub_mul, Nat.mul_comm a, Nat.mul_comm b]
    omega
  have hle : b ≤ a := Nat.le_of_mul_le_mul_left (by omega : s.pageSize * b ≤ s.pageSize * a) hps
  unfold keptPages
  rw [hs', hfree, length_stride hps, ha, hb, Nat.mul_div_cancel_left a hps,
    Nat.mul_div_cancel_left b hps, hl, divCeil_mul hps]
  omega

theorem keptPages_drop (hs' : s'.pageSize = s.pageSize)
    (hfree : s'.freeSlots = s.freeSlots.drop n) (hlazy : s'.lazyFreeList = s.lazyFreeList)
    (hn : n ≤ s.freeSlots.length) : keptPages s nodes = keptPages s' nodes + n := by
  unfold keptPages PageState.freePages
  rw [hs', hfree, hlazy, List.length_append, List.length_append, length_drop]
  omega

theorem keptPages_free (s : PageState) (l : List Slot) (nodes : List RadixTreeNode) :
    keptPages (s.free l) nodes = keptPages s nodes + (stride s.pageSize l).length := by
  unfold keptPages
  rw [length_freePages_free, PageState.free_pageSize, add_right_comm]

/-- The two ends of a `lazy_free_region`, or nothing. -/
inductive LazyStep (s : PageState) : PageState → Prop
  | refl : LazyStep s s
  | enter (h : s.lazyFreeList = none) : LazyStep s s.enterLazyFree
  | exit : LazyStep s s.exitLazyFree

theorem LazyStep.spec (h : LazyStep s s') :
    s'.pageSize = s.pageSize ∧ s'.freePages = s.freePages := by
  cases h with
  | refl => exact ⟨rfl, rfl⟩
  | enter hnone =>
    refine ⟨rfl, ?_⟩
    unfold PageState.freePages
    rw [hnone]
    rfl
  | exit => exact ⟨rfl, append_nil _⟩

theorem LazyStep.keptPages_eq (h : LazyStep s s') (nodes : List RadixTreeNode) :
    keptPages s' nodes = keptPages s nodes := by
  unfold keptPages
  rw [h.spec.1, h.spec.2]

theorem take_take_of_le_length {ids : List Token} {k : ℕ} (h : k ≤ (ids.take n).length) :
    (ids.take n).take k = ids.take k := by
  rw [List.take_take, Nat.min_eq_left (h.trans (List.length_take_le _ _))]

/-- What is neither protected nor freed lazily is available. -/
theorem KvInv.available_eq {locks : List Path} {sizes : KvSizes}
    (h : KvInv s.pageSize locks nodes sizes) (hclosed : s.lazyFreeList = none) :
    sizes.evictable + s.freeSlots.length * s.pageSize =
      ((keptPages s nodes : ℤ) - prefixCount s.pageSize locks) * s.pageSize := by
  have htotal : sizes.evictable + sizes.protectedSize = ((valuesOf nodes).length : ℕ) := by
    rw [h.evictable, h.protectedSize, ← total_add, total_tokens, length_valuesOf h.wf.value_len]
  obtain ⟨a, ha⟩ := h.wf.dvd_length_valuesOf
  rw [h.protectedSize_eq, ha] at htotal
  unfold keptPages PageState.freePages
  rw [hclosed, ha, Nat.mul_div_cancel_left a h.wf.trie.page_pos, List.length_append]
  push_cast at htotal ⊢
  have hnil : (List.length ((none : Option (List Slot)).getD []) : ℤ) = 0 := rfl
  rw [hnil]
  linarith

/-- An eviction that ends early only when nothing is left gives the pages that were asked for. -/
theorem evicted_ge {locks : List Path} {sizes : KvSizes}
    {free : List Slot} (hlt : free.length < n) (hr : Removes nodes rs nodes')
    (h : KvInv ps locks nodes sizes)
    (hn : ((n * ps : ℕ) : ℤ) ≤ sizes.evictable + free.length * ps)
    (hend : (n - free.length) * ps ≤ tokensOf rs ∨ ∀ m, ¬UnlockedLeaf nodes' m) :
    n ≤ (free ++ stride ps (valuesOf rs)).length := by
  have hps := h.wf.trie.page_pos
  have hsize : (((n - free.length) * ps : ℕ) : ℤ) ≤ sizes.evictable := by
    rw [Nat.cast_mul, Nat.cast_sub hlt.le]
    push_cast at hn
    linarith
  have hle := (hr.delivered h hsize hend).trans (le_divCeil_mul hps)
  rw [List.length_append, length_stride hps, (h.promise_of_removes hr).2.2.2]
  have := Nat.le_of_mul_le_mul_right hle hps
  omega

/-! ### Linear attention -/

variable {tics : ℕ → ℤ} {c : HybridRadixCache} {e : Bool} {pages : List Slot} {tic now : ℤ}

namespace HybridCacheManager

variable {H : Heapq timestamp} {m m' : HybridCacheManager H} {handles : List HybridCacheHandle}
  {hd : HybridCacheHandle} {r : Req HybridCacheHandle}

instance : PageCount (HybridCacheManager H) where
  Closed m := m.lazyFreeList = none
  kept m := keptPages m.toPageState m.prefixCache.nodes

abbrev withTree (m : HybridCacheManager H) (c : HybridRadixCache) : HybridCacheManager H :=
  { m with prefixCache := c }

/-- The invariant of a manager whose locked handles are `handles`. -/
structure Ok (m : HybridCacheManager H) (handles : List HybridCacheHandle) : Prop where
  pos : 0 < m.pageSize
  pageSize : m.prefixCache.pageSize = m.pageSize
  inv : m.prefixCache.Inv (lockedPaths handles)
  len : ∀ hd ∈ handles, hd.node.length = hd.cachedLen

structure Lockable (m : HybridCacheManager H) (hd : HybridCacheHandle) : Prop where
  address : IsAddress m.prefixCache.nodes hd.node
  snapshot : SnapshotNode m.prefixCache.nodes hd.node
  len : hd.node.length = hd.cachedLen

theorem Ok.kv (h : m.Ok handles) :
    KvInv m.pageSize (lockedPaths handles) m.prefixCache.nodes m.prefixCache.full :=
  h.pageSize ▸ h.inv.kv

theorem Ok.of_perm {handles' : List HybridCacheHandle} (h : m.Ok handles)
    (hp : handles.Perm handles') : m.Ok handles' where
  pos := h.pos
  pageSize := h.pageSize
  inv := ⟨h.inv.kv.of_perm (hp.map _), fun n hn => by
      rw [h.inv.mamba.ref n hn, lockedPaths, lockedPaths, (hp.map _).count_eq],
    fun n hn hl => h.inv.mamba.snapshot n hn ((hp.map _).mem_iff.mpr hl),
    h.inv.mamba.evictable, h.inv.mamba.protectedSize⟩
  len hd hm := h.len hd (hp.mem_iff.mpr hm)

/-- The handle of a locked path ends at a page. -/
theorem Ok.dvd_cachedLen (h : m.Ok handles) (hm : hd ∈ handles) : m.pageSize ∣ hd.cachedLen := by
  rw [← h.len hd hm]
  exact h.kv.wf.trie.dvd_address (h.kv.locked _ (mem_map_of_mem hm))

theorem Ok.of_pageState (h : m.Ok handles) (hc : m'.prefixCache = m.prefixCache)
    (hs : m'.pageSize = m.pageSize) : m'.Ok handles :=
  ⟨hs ▸ h.pos, hc ▸ h.pageSize.trans hs.symm, hc ▸ h.inv, h.len⟩

theorem Ok.free (h : m.Ok handles) (l : List Slot) : (m.free l).Ok handles :=
  h.of_pageState rfl (PageState.free_pageSize _ l)

theorem Ok.freeStateSlots (h : m.Ok handles) (slots : List ℕ) :
    (m.freeStateSlots slots).Ok handles :=
  h.of_pageState rfl rfl

theorem withTree_sameCount
    (h : (valuesOf c.nodes).length = (valuesOf m.prefixCache.nodes).length) :
    SameCount m (m.withTree c) :=
  ⟨rfl, id, congrArg (fun k => m.freePages.length + k / m.pageSize) h⟩

theorem matchPrefix_spec (h : m.Ok handles) (ids : List Token) (tic : ℤ)
    {x : HybridMatch} (hc : m.prefixCache.matchPrefix ids tic = (c, x)) :
    (m.withTree c).Ok handles ∧ SameCount m (m.withTree c) ∧
      (m.withTree c).Lockable ⟨x.cachedLen, x.node, x.kvIndices⟩ ∧
      x.node = ids.take x.cachedLen ∧ x.cachedLen ≤ ids.length := by
  obtain ⟨k, hk⟩ := HybridRadixCache.matchPrefix_spec h.inv.kv.wf ids tic
  rw [hc] at hk
  obtain ⟨hps, hfull, hmamba⟩ := hk.fields
  have hle : x.cachedLen ≤ ids.length := hk.le.trans hk.longest.le
  refine ⟨⟨h.pos, hps.trans h.pageSize, ?_, h.len⟩, withTree_sameCount ?_,
    ⟨hk.nodeAddress, hk.snapshotNode, ?_⟩, hk.node_eq, hle⟩
  · exact ⟨by rw [hps, hfull]; exact hk.reshape.kvInv h.inv.kv,
      hmamba ▸ h.inv.mamba.reshape h.inv.kv hk.reshape⟩
  · exact length_valuesOf_congr fun s => hk.reshape.total_eq h.inv.kv.wf (splits_slotCount s)
  · show x.node.length = x.cachedLen
    rw [hk.node_eq, length_take, Nat.min_eq_left hle]

theorem lock_spec (h : m.Ok handles) (hl : m.Lockable hd) :
    (m.lock hd).Ok (hd :: handles) ∧ SameCount m (m.lock hd) := by
  obtain ⟨hinv, hsame, hps⟩ := HybridRadixCache.incLock_spec h.inv hl.address hl.snapshot
  refine ⟨⟨h.pos, hps.trans h.pageSize, hinv, fun hd' hm => ?_⟩,
    withTree_sameCount (length_valuesOf_sameCore hsame)⟩
  rcases mem_cons.mp hm with rfl | hm
  · exact hl.len
  · exact h.len hd' hm

theorem unlock_spec (h : m.Ok (hd :: handles)) :
    (m.unlock hd).Ok handles ∧ SameCount m (m.unlock hd) := by
  obtain ⟨hinv, hsame, hps⟩ := HybridRadixCache.decLock_spec h.inv
    (List.mem_cons_self : hd.node ∈ hd.node :: lockedPaths handles)
  change HybridRadixCache.Inv _ (List.erase (hd.node :: lockedPaths handles) hd.node) at hinv
  rw [erase_cons_head] at hinv
  exact ⟨⟨h.pos, hps.trans h.pageSize, hinv, fun hd' hm => h.len hd' (List.mem_cons_of_mem _ hm)⟩,
    withTree_sameCount (length_valuesOf_sameCore hsame)⟩

theorem ensureLoop_spec (n : ℕ) : ∀ (fuel : ℕ) {m : HybridCacheManager H}, m.Ok handles →
    (ensureLoop n fuel m).Ok handles ∧ SameCount m (ensureLoop n fuel m) := by
  intro fuel
  induction fuel with
  | zero => exact fun h => ⟨h, .refl _⟩
  | succ fuel ih =>
    intro m h
    unfold ensureLoop
    split_ifs with hlt
    · rcases hc : m.prefixCache.evictMamba H (n - m.stateSlots.length) with ⟨c, er⟩
      obtain ⟨hinv, hps, hslots, -, -, hnil, -⟩ :=
        HybridRadixCache.evictMamba_spec h.inv H _ hc.symm
      have hok : (m.withTree c).Ok handles := ⟨h.pos, hps.trans h.pageSize, hinv, h.len⟩
      have hlen := length_valuesOf_sub hslots
      dsimp only
      split_ifs with hempty
      · rw [hnil hempty] at hlen
        exact ⟨hok, withTree_sameCount hlen⟩
      · obtain ⟨h₁, hs₁⟩ :=
          ih (m := free { m.withTree c with stateSlots := m.stateSlots ++ er.mambaSlots }
          er.kvIndices) (hok.of_pageState rfl (PageState.free_pageSize _ _))
        refine ⟨h₁, SameCount.trans ⟨PageState.free_pageSize _ _, fun hcl => ?_, ?_⟩ hs₁⟩
        · exact PageState.free_closed hcl
        · exact keptPages_eq_of_freed (PageState.free_pageSize _ _) (length_freePages_free _ _)
            h.kv.wf hok.kv.wf hlen
    · exact ⟨h, .refl _⟩

/-- The eviction of `_allocate` moves pages from the tree to the free list, and enough of them. -/
theorem evictFull_spec (h : m.Ok handles) (n : ℕ) : (m.evictFull n).Ok handles ∧
    SameCount m (m.evictFull n) ∧
    (((n * m.pageSize : ℕ) : ℤ) ≤ m.availableSize → n ≤ (m.evictFull n).freeSlots.length) := by
  unfold evictFull
  split_ifs with hlt
  · rcases hc : m.prefixCache.evictFull H ((n - m.freeSlots.length) * m.pageSize) with ⟨c, er⟩
    obtain ⟨rs, hrem, hkv, -, hend, hinv, hps, -⟩ :=
      HybridRadixCache.evictFull_spec h.inv H _ hc.symm
    have hok : (m.withTree c).Ok handles := ⟨h.pos, hps.trans h.pageSize, hinv, h.len⟩
    dsimp only
    refine ⟨hok.of_pageState rfl rfl, ⟨rfl, id, ?_⟩, fun hn => ?_⟩
    · refine keptPages_eq_of_freed rfl ?_ h.kv.wf hok.kv.wf (hkv ▸ hrem.length_valuesOf h.kv.wf)
      exact PageState.length_freePages_append
    · rw [hkv]
      exact evicted_ge hlt hrem h.kv hn hend
  · exact ⟨h, .refl m, fun _ => not_lt.mp hlt⟩

/-- **`_allocate` delivers what is free or evictable.** -/
theorem allocate_isSome (h : m.Ok handles)
    (hn : ((n * m.pageSize : ℕ) : ℤ) ≤ m.availableSize) : (m.allocate n).isSome := by
  unfold allocate
  rw [if_pos ((m.evictFull_spec h n).2.2 hn)]
  rfl

theorem allocate_spec (h : m.Ok handles)
    (ha : m.allocate n = some (m', pages)) : m'.Ok handles ∧ m'.pageSize = m.pageSize ∧
      PageCount.kept m = PageCount.kept m' + n := by
  obtain ⟨hok, hsame, -⟩ := m.evictFull_spec h n
  unfold allocate at ha
  dsimp only at ha
  split_ifs at ha with hle
  obtain ⟨rfl, -⟩ := Prod.mk.inj (Option.some.inj ha)
  refine ⟨hok.of_pageState rfl rfl, hsame.pageSize, ?_⟩
  rw [← hsame.kept]
  exact keptPages_drop rfl rfl rfl hle

theorem allocatePaged_spec (h : m.Ok handles) {reqs : List (Req HybridCacheHandle)}
    (ha : m.allocatePaged reqs = some m') : m'.Ok handles ∧ m'.pageSize = m.pageSize ∧
      PageCount.kept m = PageCount.kept m' + neededPages (allocationInfo m.pageSize reqs) := by
  unfold allocatePaged at ha
  dsimp only at ha
  split_ifs at ha with hpos
  · obtain ⟨⟨m₁, pages⟩, ha₁, rfl⟩ := map_eq_some_iff.mp ha
    obtain ⟨hok, hps, hkept⟩ := allocate_spec h ha₁
    exact ⟨hok.of_pageState rfl rfl, hps, hkept⟩
  · obtain rfl := Option.some.inj ha
    exact ⟨h, rfl, by omega⟩

/-! ### Commits -/

theorem insert_take (c : HybridRadixCache) (ids : List Token) (kv : List Slot) (v : ℕ)
    (tic now : ℤ) :
    c.insert ids kv v tic now = c.insert ids (kv.take ids.length) v tic now := by
  have hle := alignDown_le ids.length c.pageSize
  simp only [HybridRadixCache.insert, List.take_take, Nat.min_eq_left hle]

theorem insert_spec (h : m.Ok handles) {len v p : ℕ} (hlen : len ≤ r.cachedLen)
    (heq : m.insert r len v tic now = (m', p, e)) : m'.Ok handles ∧ m'.toPageState = m.toPageState ∧
      p ≤ alignDown (r.inputIds.take len).length m.pageSize ∧
      (valuesOf m'.prefixCache.nodes).length = (valuesOf m.prefixCache.nodes).length +
        (alignDown (r.inputIds.take len).length m.pageSize - p) := by
  unfold insert at heq
  dsimp only at heq
  rw [insert_take] at heq
  obtain ⟨ids, hids⟩ : ∃ ids, ids = r.inputIds.take len := ⟨_, rfl⟩
  obtain ⟨kv, hkv⟩ : ∃ kv, kv = ((m.pageTable.row r.tableIdx 0 r.cachedLen).take len).take
    ids.length :=
    ⟨_, rfl⟩
  have hlenkv : ids.length = kv.length := by
    rw [hkv, hids, length_take, length_take, length_take, PageTable.length_row]
    omega
  obtain ⟨c, p', e', hc, hps, hinv, -, hlong, -, -, hslots, -⟩ :=
    HybridRadixCache.insert_spec h.inv hlenkv v tic now
  rw [← hids, ← hkv, hc] at heq
  obtain ⟨rfl, hpe⟩ := Prod.mk.inj heq
  obtain ⟨rfl, -⟩ := Prod.mk.inj hpe
  have hle := alignDown_le ids.length m.pageSize
  rw [h.pageSize] at hlong hslots
  have hp := hlong.le
  rw [length_take, Nat.min_eq_left hle] at hp
  refine ⟨⟨h.pos, hps.trans h.pageSize, hinv, h.len⟩, rfl, hids ▸ hp, ?_⟩
  have hcount : (valuesOf c.nodes).length + [].length = _ := length_valuesOf_add fun x =>
    (add_zero _).trans (hslots (fun l => (l.count x : ℕ)) (h.pageSize ▸ splits_slotCount x) rfl)
  rw [length_nil, length_drop, length_take, ← hlenkv, Nat.min_eq_left hle] at hcount
  rw [← hids]
  exact hcount

theorem relock_spec (h : m.Ok handles) {len p : ℕ} (heq : m.relock r len p tic = (m', hd)) :
    m'.Ok (hd :: handles) ∧ SameCount m m' ∧ hd.node = (r.inputIds.take len).take hd.cachedLen ∧
      hd.cachedLen ≤ (r.inputIds.take len).length := by
  unfold relock at heq
  rcases hc : m.prefixCache.matchPrefix (r.inputIds.take len) tic with ⟨c, x⟩
  obtain ⟨hok, hsame, hl, hnode, hle⟩ := matchPrefix_spec h _ tic hc
  rw [hc] at heq
  dsimp only at heq
  obtain ⟨hok₂, hsame₂⟩ := lock_spec hok hl
  have hsame' := hsame.trans hsame₂
  split_ifs at heq with hlt
  · obtain ⟨rfl, rfl⟩ := Prod.mk.inj heq
    exact ⟨hok₂.of_pageState rfl rfl, ⟨rfl, hsame'.closed, hsame'.kept⟩, hnode, hle⟩
  · obtain ⟨rfl, rfl⟩ := Prod.mk.inj heq
    exact ⟨hok₂, hsame', hnode, hle⟩

theorem allocSlots_spec (h : m.Ok handles) (n : ℕ) :
    (m.allocSlots n).1.Ok handles ∧ SameCount m (m.allocSlots n).1 :=
  ⟨h.of_pageState rfl rfl, ⟨rfl, id, rfl⟩⟩

theorem replaceFrozen_spec (h : m.Ok handles) {pp pp' : ℕ × ℕ}
    (heq : m.replaceFrozen r pp = some (m', pp')) : m'.Ok handles ∧ SameCount m m' := by
  obtain ⟨slot, -, hx⟩ := map_eq_some_iff.mp heq
  obtain ⟨rfl, -⟩ := Prod.mk.inj hx
  obtain ⟨h₁, hs₁⟩ := ensureLoop_spec 1 (m.prefixCache.nodes.length + 1) h
  obtain ⟨h₂, hs₂⟩ := allocSlots_spec h₁ 1
  exact ⟨h₂, hs₁.trans hs₂⟩

theorem insert_free_spec (h : m.Ok (r.cacheHandle :: handles)) {len v p : ℕ}
    (hlen : len ≤ r.cachedLen) (heq : m.insert r len v tic now = (m', p, e)) (l : List Slot) :
    ((m'.unlock r.cacheHandle).free l).Ok handles ∧
      PageCount.kept m + (alignDown (r.inputIds.take len).length m.pageSize - p + l.length) /
        m.pageSize ≤ PageCount.kept ((m'.unlock r.cacheHandle).free l) := by
  obtain ⟨h₁, hs₁, hp, hV⟩ := insert_spec h hlen heq
  obtain ⟨h₂, hs₂⟩ := unlock_spec h₁
  have hps : m'.pageSize = m.pageSize := congrArg PageState.pageSize hs₁
  have hkept : PageCount.kept ((m'.unlock r.cacheHandle).free l) =
      PageCount.kept m' + (stride m'.pageSize l).length := by
    rw [← hs₂.kept]
    exact keptPages_free _ l _
  -- what the tree took over and what is freed are counted in whole pages
  have hdiv := div_add_le_of_slots h.pos h.kv.wf.dvd_length_valuesOf
    (hps ▸ h₁.kv.wf : WF m.pageSize _).dvd_length_valuesOf
    (g := alignDown (r.inputIds.take len).length m.pageSize - p + l.length) (f := l.length)
      (by omega)
  refine ⟨h₂.free _, ?_⟩
  rw [hkept, hps, length_stride h.pos]
  show m.freePages.length + _ + _ ≤ m'.freePages.length + _ / m'.pageSize + _
  rw [hs₁]
  omega

/-- **A commit keeps the pages it takes over.** -/
theorem cacheReq_spec (h : m.Ok (r.cacheHandle :: handles)) (hr : r.Held)
    {r' : Req HybridCacheHandle} (htrack : ∀ len ∈ r.mambaLastTrackSeqlen, len ≤ r.cachedLen)
    (heq : m.cacheReq r tics = some (m', r')) : m'.Ok (r'.cacheHandle :: handles) ∧
      m'.pageSize = m.pageSize ∧ r.SameSpan r' ∧ r'.inputIds = r.inputIds ∧ r'.Held ∧
      PageCount.kept m +
        (r'.cacheHandle.cachedLen / m.pageSize - r.cacheHandle.cachedLen / m.pageSize) ≤
        PageCount.kept m' := by
  have hnone : PageCount.kept m + (r.cacheHandle.cachedLen / m.pageSize -
      r.cacheHandle.cachedLen / m.pageSize) ≤ PageCount.kept m := by
    rw [Nat.sub_self, Nat.add_zero]
  unfold cacheReq at heq
  split at heq
  · obtain ⟨rfl, rfl⟩ := Prod.mk.inj (Option.some.inj heq)
    exact ⟨h, rfl, ⟨rfl, rfl, rfl, rfl⟩, rfl, hr, hnone⟩
  · next len hlen =>
    have hle := htrack len hlen
    split_ifs at heq with hal
    · obtain ⟨rfl, rfl⟩ := Prod.mk.inj (Option.some.inj heq)
      exact ⟨h, rfl, ⟨rfl, rfl, rfl, rfl⟩, rfl, ⟨hr.node, hr.le⟩, hnone⟩
    · obtain ⟨pp, -, hpp⟩ := bind_eq_some_iff.mp heq
      rcases hi : m.insert r len (frozenSlot r pp) (tics 0) (tics 1) with ⟨m₁, p, e⟩
      obtain ⟨-, hs₁, hp, -⟩ := insert_spec h hle hi
      rw [hi] at hpp
      dsimp only at hpp
      obtain ⟨l, hl⟩ : ∃ l, l =
        (((m₁.unlock r.cacheHandle).pageTable.row r.tableIdx 0 r.cachedLen).take p).drop
        r.cacheHandle.cachedLen := ⟨_, rfl⟩
      obtain ⟨h₃, hkept₃⟩ := insert_free_spec h hle hi l
      rw [← hl] at hpp
      rcases hrl : ((m₁.unlock r.cacheHandle).free l).relock r len p (tics 2) with ⟨m₄, hd⟩
      obtain ⟨h₄, hs₄, hnode, hcl⟩ := relock_spec h₃ hrl
      rw [hrl] at hpp
      dsimp only at hpp
      have hps : m₄.pageSize = m.pageSize :=
        hs₄.pageSize.trans ((PageState.free_pageSize _ _).trans (congrArg PageState.pageSize hs₁))
      have hids : (r.inputIds.take len).length ≤ len := List.length_take_le _ _
      have hheld : ({ r with cacheHandle := hd } : Req HybridCacheHandle).Held := by
        refine ⟨?_, (hcl.trans hids).trans hle⟩
        exact hnode.trans (take_take_of_le_length hcl)
      have hgrow : PageCount.kept m +
          (hd.cachedLen / m.pageSize - r.cacheHandle.cachedLen / m.pageSize) ≤
            PageCount.kept m₄ := by
        have hlenl : l.length = p - r.cacheHandle.cachedLen := by
          have := alignDown_le (r.inputIds.take len).length m.pageSize
          rw [hl, length_drop, length_take, PageTable.length_row]
          omega
        have hdiv := sub_div_le_of_dvd (h.dvd_cachedLen List.mem_cons_self) hcl hp
        rw [hs₄.kept]
        rw [hlenl] at hkept₃
        exact (Nat.add_le_add_left hdiv _).trans hkept₃
      split_ifs at hpp with hex
      · obtain ⟨rfl, rfl⟩ := Prod.mk.inj (Option.some.inj hpp)
        exact ⟨h₄, hps, ⟨rfl, rfl, rfl, rfl⟩, rfl, ⟨hheld.node, hheld.le⟩, hgrow⟩
      · obtain ⟨⟨m₅, pp'⟩, hrf, hx⟩ := map_eq_some_iff.mp hpp
        obtain ⟨rfl, rfl⟩ := Prod.mk.inj hx
        obtain ⟨h₅, hs₅⟩ := replaceFrozen_spec h₄ hrf
        refine ⟨h₅, hs₅.pageSize.trans hps, ⟨rfl, rfl, rfl, rfl⟩, rfl, ⟨hheld.node, hheld.le⟩, ?_⟩
        rw [hs₅.kept]
        exact hgrow

theorem insert_free_le (h : m.Ok handles) {len v p : ℕ} (hlen : len ≤ r.cachedLen)
    (heq : m.insert r len v tic now = (m', p, e)) : m'.Ok handles ∧ m'.pageSize = m.pageSize ∧
      PageCount.kept m ≤ PageCount.kept m' := by
  obtain ⟨h₁, hs₁, -, hV⟩ := insert_spec h hlen heq
  refine ⟨h₁, congrArg PageState.pageSize hs₁, ?_⟩
  show m.freePages.length + _ ≤ m'.freePages.length + _ / m'.pageSize
  rw [hs₁, hV]
  exact Nat.add_le_add_left (Nat.div_le_div_right (Nat.le_add_right _ _)) _

theorem free_le (m : HybridCacheManager H) (l : List Slot) :
    PageCount.kept m ≤ PageCount.kept (m.free l) :=
  (Nat.le_add_right _ _).trans (keptPages_free m.toPageState l _).ge

theorem donateFrozen_spec (h : m.Ok handles) (tics : ℕ → ℤ) :
    (m.donateFrozen r tics).1.Ok handles ∧ (m.donateFrozen r tics).1.pageSize = m.pageSize ∧
      PageCount.kept m ≤ PageCount.kept (m.donateFrozen r tics).1 := by
  unfold donateFrozen
  dsimp only
  split
  · next len pp _ _ =>
    split_ifs with hc
    · rcases hi : m.insert r len (frozenSlot r pp) (tics 0) (tics 1) with ⟨m₁, p, e⟩
      obtain ⟨h₁, hps, hkept⟩ := insert_free_le h hc.2.1 hi
      dsimp only
      exact ⟨(h₁.freeStateSlots _).free _, (PageState.free_pageSize _ _).trans hps, hkept.trans
        (free_le (m₁.freeStateSlots _) _)⟩
    · exact ⟨h, rfl, le_rfl⟩
  · exact ⟨h, rfl, le_rfl⟩

theorem cacheReqFinished_spec (h : m.Ok (r.cacheHandle :: handles))
    (heq : m.cacheReqFinished r tics = some m') :
    m'.Ok handles ∧ m'.pageSize = m.pageSize ∧ PageCount.kept m ≤ PageCount.kept m' := by
  unfold cacheReqFinished at heq
  obtain ⟨h₁, hps₁, hkept₁⟩ := donateFrozen_spec (r := r) h tics
  rcases hd : m.donateFrozen r tics with ⟨m₁, pp, upto⟩
  rw [hd] at heq h₁ hps₁ hkept₁
  dsimp only at heq h₁ hps₁ hkept₁
  split_ifs at heq with hc
  · obtain ⟨live, -, hx⟩ := map_eq_some_iff.mp heq
    rcases hi : m₁.insert r (alignDown r.cachedLen m₁.pageSize) live (tics 2)
      (tics 3) with ⟨m₂, p, e⟩
    obtain ⟨h₂, hps₂, hkept₂⟩ := insert_free_le h₁ (alignDown_le _ _) hi
    obtain ⟨h₃, hs₃⟩ := unlock_spec h₂
    rw [hi] at hx
    subst hx
    refine ⟨(h₃.free _).of_pageState rfl rfl,
      (PageState.free_pageSize _ _).trans (hps₂.trans hps₁), ?_⟩
    exact (hkept₁.trans hkept₂).trans (hs₃.kept.ge.trans (free_le _ _))
  · obtain rfl := Option.some.inj heq
    obtain ⟨h₃, hs₃⟩ := unlock_spec h₁
    exact ⟨(h₃.free _).of_pageState rfl rfl, (PageState.free_pageSize _ _).trans hps₁,
      hkept₁.trans (hs₃.kept.ge.trans (free_le _ _))⟩

end HybridCacheManager

instance {H : Heapq timestamp} : CountedCache (HybridCacheManager H) HybridCacheHandle where
  New m := ∃ (ps numPages numSlots : ℕ) (pageTable : PageTable), 0 < ps ∧
    m = .init H ps numPages numSlots pageTable
  AllocatePaged m reqs m' := m.allocatePaged reqs = some m'
  -- the forward sets the tracked length to a boundary that it has computed
  Commit m r m' r' := (∀ len ∈ r.mambaLastTrackSeqlen, len ≤ r.cachedLen) ∧
    ∃ tics, m.cacheReq r tics = some (m', r')
  Release m r m' := ∃ tics, m.cacheReqFinished r tics = some m'
  Other m m' := ∃ s slots, LazyStep m.toPageState s ∧
    m' = { m with toPageState := s, stateSlots := slots }
  Ok := HybridCacheManager.Ok
  Lockable := HybridCacheManager.Lockable
  new_spec h := by
    obtain ⟨ps, numPages, numSlots, pageTable, hps, rfl⟩ := h
    exact ⟨⟨hps, rfl, ⟨kvInv_nil hps, mambaInv_nil⟩, fun hd hm => absurd hm not_mem_nil⟩, rfl⟩
  pageSize_pos h := h.pos
  ok_perm h hp := h.of_perm hp
  handle_spec h hm := h.len _ hm
  availableSize_eq h hclosed := h.kv.available_eq hclosed
  matchReq_spec {m m' handles ids tic hd v} h heq := by
    rcases hc : m.prefixCache.matchPrefix (ids.take (ids.length - 1)) tic with ⟨c, x⟩
    obtain ⟨hok, hsame, hl, hnode, hle⟩ := HybridCacheManager.matchPrefix_spec h _ tic hc
    change m.matchReq ids tic = (m', hd, v) at heq
    unfold HybridCacheManager.matchReq at heq
    rw [hc] at heq
    obtain ⟨rfl, hx⟩ := Prod.mk.inj heq
    obtain ⟨rfl, -⟩ := Prod.mk.inj hx
    exact ⟨hok, hl, hsame, hnode.trans (take_take_of_le_length hle)⟩
  lock_spec h hl heq := by
    obtain ⟨rfl, rfl⟩ := Prod.mk.inj heq
    obtain ⟨hok, hsame⟩ := HybridCacheManager.lock_spec h hl
    exact ⟨hok, hsame, rfl, rfl⟩
  unlock_spec h := HybridCacheManager.unlock_spec h
  ensureMambaSlots_spec n h := HybridCacheManager.ensureLoop_spec n _ h
  allocSlots_spec n h := HybridCacheManager.allocSlots_spec h n
  freeStateSlots_spec slots h := ⟨h.freeStateSlots slots, ⟨rfl, id, rfl⟩⟩
  writeMatched_spec _ _ h := ⟨h.of_pageState rfl rfl, ⟨rfl, id, rfl⟩⟩
  other_spec h ho := by
    obtain ⟨s, slots, hs, rfl⟩ := ho
    exact ⟨h.of_pageState rfl hs.spec.1, hs.spec.1, hs.keptPages_eq _⟩
  allocatePaged_spec h ha := HybridCacheManager.allocatePaged_spec h ha
  commit_spec h hr _ hc := by
    obtain ⟨htrack, tics, hc⟩ := hc
    exact HybridCacheManager.cacheReq_spec h hr htrack hc
  release_spec h _ _ hc := by
    obtain ⟨tics, hc⟩ := hc
    exact HybridCacheManager.cacheReqFinished_spec h hc

/-! ### Sliding window -/

namespace SWACacheManager

variable {H : Heapq timestamp} {m m' : SWACacheManager H} {handles : List SWACacheHandle}
  {hd : SWACacheHandle} {r : Req SWACacheHandle}

instance : PageCount (SWACacheManager H) where
  Closed m := m.lazyFreeList = none
  kept m := keptPages m.toPageState m.prefixCache.nodes

abbrev withTree (m : SWACacheManager H) (c : SWARadixCache) : SWACacheManager H :=
  { m with prefixCache := c }

/-- The tree with the locks that `handles` stand for, each with the `swa_uuid` its handle has. -/
def TreeInv (c : SWARadixCache) (handles : List SWACacheHandle) : Prop :=
  ∃ locks : List SwaLock, SwaInv c.pageSize locks c.nodes c.full c.swa c.uuid ∧
    (locks.map fun L => (L.node, L.swaUuid)).Perm (handles.map fun hd => (hd.node, hd.swaUuid))

/-- The invariant of a manager whose locked handles are `handles`. -/
structure Ok (m : SWACacheManager H) (handles : List SWACacheHandle) : Prop where
  pos : 0 < m.pageSize
  window : 0 < m.prefixCache.slidingWindowSize
  pageSize : m.prefixCache.pageSize = m.pageSize
  inv : TreeInv m.prefixCache handles
  len : ∀ hd ∈ handles, hd.node.length = hd.cachedLen

structure Lockable (m : SWACacheManager H) (hd : SWACacheHandle) : Prop where
  address : IsAddress m.prefixCache.nodes hd.node
  len : hd.node.length = hd.cachedLen

theorem Ok.kv (h : m.Ok handles) :
    KvInv m.pageSize (lockedPaths handles) m.prefixCache.nodes m.prefixCache.full := by
  obtain ⟨locks, hinv, hperm⟩ := h.inv
  have hfst := hperm.map Prod.fst
  rw [List.map_map, List.map_map] at hfst
  exact h.pageSize ▸ hinv.kv.of_perm hfst

theorem Ok.of_perm {handles' : List SWACacheHandle} (h : m.Ok handles)
    (hp : handles.Perm handles') :
    m.Ok handles' := by
  obtain ⟨locks, hinv, hperm⟩ := h.inv
  exact ⟨h.pos, h.window, h.pageSize, ⟨locks, hinv, hperm.trans (hp.map _)⟩,
    fun hd hm => h.len hd (hp.mem_iff.mpr hm)⟩

/-- The handle of a locked path ends at a page. -/
theorem Ok.dvd_cachedLen (h : m.Ok handles) (hm : hd ∈ handles) : m.pageSize ∣ hd.cachedLen := by
  rw [← h.len hd hm]
  exact h.kv.wf.trie.dvd_address (h.kv.locked _ (mem_map_of_mem hm))

theorem Ok.of_pageState (h : m.Ok handles) (hc : m'.prefixCache = m.prefixCache)
    (hs : m'.pageSize = m.pageSize) : m'.Ok handles :=
  ⟨hs ▸ h.pos, hc ▸ h.window, hc ▸ h.pageSize.trans hs.symm, hc ▸ h.inv, h.len⟩

theorem Ok.free (h : m.Ok handles) (l : List Slot) : (m.free l).Ok handles :=
  h.of_pageState rfl (PageState.free_pageSize _ l)

theorem Ok.freeSwa (h : m.Ok handles) (l : List Slot) : (m.freeSwa l).Ok handles :=
  h.of_pageState rfl rfl

theorem Ok.of_tree (h : m.Ok handles) {c : SWARadixCache}
    (hfields : c.pageSize = m.prefixCache.pageSize ∧
      c.slidingWindowSize = m.prefixCache.slidingWindowSize) (hinv : TreeInv c handles) :
    (m.withTree c).Ok handles :=
  ⟨h.pos, lt_of_lt_of_eq h.window hfields.2.symm, hfields.1.trans h.pageSize, hinv, h.len⟩

theorem withTree_sameCount {c : SWARadixCache}
    (h : (valuesOf c.nodes).length = (valuesOf m.prefixCache.nodes).length) :
    SameCount m (m.withTree c) :=
  ⟨rfl, id, congrArg (fun k => m.freePages.length + k / m.pageSize) h⟩

theorem matchPrefix_spec (h : m.Ok handles) (ids : List Token) :
    (m.matchPrefix ids).1.Ok handles ∧ SameCount m (m.matchPrefix ids).1 ∧
      (m.matchPrefix ids).1.Lockable (m.matchPrefix ids).2 ∧
      (m.matchPrefix ids).2.node = ids.take (m.matchPrefix ids).2.cachedLen ∧
      (m.matchPrefix ids).2.cachedLen ≤ ids.length := by
  obtain ⟨locks, hinv, hperm⟩ := h.inv
  obtain ⟨k, hk⟩ := SWARadixCache.matchPrefix_spec h.window hinv.kv.wf ids
  obtain ⟨hps, hwin, hfull, hswa, huuid⟩ := hk.fields
  have hle : (m.prefixCache.matchPrefix ids).2.cachedLen ≤ ids.length := hk.le.trans hk.longest.le
  have htree : TreeInv (m.prefixCache.matchPrefix ids).1 handles := by
    refine ⟨locks, ?_, hperm⟩
    rw [hps, hfull, hswa, huuid]
    exact hinv.reshape hk.reshape
  refine ⟨h.of_tree ⟨hps, hwin⟩ htree, withTree_sameCount ?_, ⟨hk.nodeAddress, ?_⟩, hk.node_eq, hle⟩
  · exact length_valuesOf_congr fun s => hk.reshape.total_eq hinv.kv.wf (splits_slotCount s)
  · show (m.prefixCache.matchPrefix ids).2.node.length = (m.prefixCache.matchPrefix ids).2.cachedLen
    rw [hk.node_eq, length_take, Nat.min_eq_left hle]

theorem lock_spec (h : m.Ok handles) (hl : m.Lockable hd) :
    (m.lock hd).1.Ok ((m.lock hd).2 :: handles) ∧ SameCount m (m.lock hd).1 := by
  obtain ⟨locks, hinv, hperm⟩ := h.inv
  obtain ⟨hinc, hsame⟩ := hinv.incLock h.window hl.address rfl
  refine ⟨⟨h.pos, h.window, h.pageSize, ⟨_, hinc, hperm.cons _⟩, fun hd' hm => ?_⟩,
    withTree_sameCount (length_valuesOf_sameCore hsame)⟩
  rcases mem_cons.mp hm with rfl | hm
  · exact hl.len
  · exact h.len hd' hm

theorem unlock_spec (h : m.Ok (hd :: handles)) :
    (m.unlock hd).Ok handles ∧ SameCount m (m.unlock hd) := by
  obtain ⟨locks, hinv, hperm⟩ := h.inv
  obtain ⟨L, hL, hx⟩ := mem_map.mp (hperm.mem_iff.mpr List.mem_cons_self)
  obtain ⟨hnode, huuid⟩ := Prod.mk.inj hx
  obtain ⟨hdec, hsame⟩ := hinv.decLock hL rfl
  rw [hnode, huuid] at hdec hsame
  have hrest := ((perm_cons_erase hL).map fun L => (L.node, L.swaUuid)).symm.trans hperm
  rw [map_cons, map_cons, hx] at hrest
  exact ⟨⟨h.pos, h.window, h.pageSize, ⟨_, hdec, hrest.cons_inv⟩, fun hd' hm =>
    h.len hd' (List.mem_cons_of_mem _ hm)⟩, withTree_sameCount (length_valuesOf_sameCore hsame)⟩

theorem ensureLoop_spec (n : ℕ) : ∀ (fuel : ℕ) {m : SWACacheManager H}, m.Ok handles →
    (ensureLoop n fuel m).Ok handles ∧ SameCount m (ensureLoop n fuel m) := by
  intro fuel
  induction fuel with
  | zero => exact fun h => ⟨h, .refl _⟩
  | succ fuel ih =>
    intro m h
    obtain ⟨locks, hinv, hperm⟩ := h.inv
    unfold ensureLoop
    split_ifs with hlt
    · rcases hc : m.prefixCache.evictSwa H (n - m.swaPool.swaAvailableSize) with ⟨c, ev⟩
      obtain ⟨hinv', ⟨hps, hwin, -⟩, hslots, -, -, hnil, -⟩ :=
        SWARadixCache.evictSwa_spec hinv H _ hc.symm
      have hok : (m.withTree c).Ok handles := h.of_tree ⟨hps, hwin⟩ ⟨locks, hps ▸ hinv', hperm⟩
      have hlen := length_valuesOf_sub hslots
      dsimp only
      split_ifs with hempty
      · rw [hnil hempty] at hlen
        exact ⟨hok, withTree_sameCount hlen⟩
      · obtain ⟨h₁, hs₁⟩ := ih (m := ((m.withTree c).freeSwa ev.swaIndices).free ev.kvIndices)
          (hok.of_pageState rfl (PageState.free_pageSize _ _))
        refine ⟨h₁, SameCount.trans ⟨PageState.free_pageSize _ _, fun hcl => ?_, ?_⟩ hs₁⟩
        · exact PageState.free_closed hcl
        · exact keptPages_eq_of_freed (PageState.free_pageSize _ _) (length_freePages_free _ _)
            h.kv.wf hok.kv.wf hlen
    · exact ⟨h, .refl _⟩

/-- The eviction of `_allocate` moves pages from the tree to the free list, and enough of them. -/
theorem evictFull_spec (h : m.Ok handles) (n : ℕ) : (m.evictFull n).Ok handles ∧
    SameCount m (m.evictFull n) ∧
    (((n * m.pageSize : ℕ) : ℤ) ≤ m.availableSize → n ≤ (m.evictFull n).freeSlots.length) := by
  obtain ⟨locks, hinv, hperm⟩ := h.inv
  unfold evictFull
  split_ifs with hlt
  · rcases hc : m.prefixCache.evictFull H ((n - m.freeSlots.length) * m.pageSize) with ⟨c, ev⟩
    obtain ⟨rs, hrem, hkv, -, hend, hinv', ⟨hps, hwin, -⟩, -⟩ :=
      SWARadixCache.evictFull_spec hinv H _ hc.symm
    have hok : (m.withTree c).Ok handles := h.of_tree ⟨hps, hwin⟩ ⟨locks, hps ▸ hinv', hperm⟩
    dsimp only
    refine ⟨hok.of_pageState rfl rfl, ⟨rfl, id, ?_⟩, fun hn => ?_⟩
    · refine keptPages_eq_of_freed rfl ?_ h.kv.wf hok.kv.wf (hkv ▸ hrem.length_valuesOf h.kv.wf)
      exact PageState.length_freePages_append
    · rw [hkv]
      exact evicted_ge hlt hrem h.kv hn hend
  · exact ⟨h, .refl m, fun _ => not_lt.mp hlt⟩

/-- **`_allocate` delivers what is free or evictable.** -/
theorem allocate_isSome (h : m.Ok handles)
    (hn : ((n * m.pageSize : ℕ) : ℤ) ≤ m.availableSize) : (m.allocate n).isSome := by
  unfold allocate
  rw [if_pos ((m.evictFull_spec h n).2.2 hn)]
  rfl

theorem allocate_spec (h : m.Ok handles)
    (ha : m.allocate n = some (m', pages)) : m'.Ok handles ∧ m'.pageSize = m.pageSize ∧
      PageCount.kept m = PageCount.kept m' + n := by
  obtain ⟨hok, hsame, -⟩ := m.evictFull_spec h n
  unfold allocate at ha
  dsimp only at ha
  split_ifs at ha with hle
  obtain ⟨rfl, -⟩ := Prod.mk.inj (Option.some.inj ha)
  refine ⟨hok.of_pageState rfl rfl, hsame.pageSize, ?_⟩
  rw [← hsame.kept]
  exact keptPages_drop rfl rfl rfl hle

theorem allocatePaged_spec (h : m.Ok handles) {reqs : List (Req SWACacheHandle)}
    (ha : m.allocatePaged reqs = some m') : m'.Ok handles ∧ m'.pageSize = m.pageSize ∧
      PageCount.kept m = PageCount.kept m' + neededPages (allocationInfo m.pageSize reqs) := by
  unfold allocatePaged at ha
  dsimp only at ha
  split_ifs at ha with hpos
  · obtain ⟨⟨m₁, pages⟩, ha₁, hx⟩ := bind_eq_some_iff.mp ha
    obtain ⟨pool, -, rfl⟩ := map_eq_some_iff.mp hx
    obtain ⟨h₁, hps, hkept⟩ := allocate_spec h ha₁
    obtain ⟨h₂, hs₂⟩ := ensureLoop_spec (pageToToken m₁.pageSize pages).length
      (m₁.prefixCache.nodes.length + 1) h₁
    exact ⟨h₂.of_pageState rfl rfl, hs₂.pageSize.trans hps,
      hkept.trans (congrArg (· + _) hs₂.kept.symm)⟩
  · obtain rfl := Option.some.inj ha
    exact ⟨h, rfl, by omega⟩

/-! ### Commits and releases -/

theorem free_le (m : SWACacheManager H) (l : List Slot) :
    PageCount.kept m ≤ PageCount.kept (m.free l) :=
  (Nat.le_add_right _ _).trans (keptPages_free m.toPageState l _).ge

theorem insert_take (c : SWARadixCache) (ids : List Token) (kv : List Slot) (e p : ℕ) :
    c.insert ids kv e p = c.insert ids (kv.take ids.length) e p := by
  have hle := alignDown_le ids.length c.pageSize
  simp only [SWARadixCache.insert, List.take_take, Nat.min_eq_left hle]

/-- **A commit keeps the pages it takes over**: what the tree does not keep is free. -/
theorem insert_spec (h : m.Ok (r.cacheHandle :: handles)) (he : m.pageSize ∣ r.swaEvictedSeqlen) :
    (m.insert r).Ok handles ∧ (m.insert r).pageSize = m.pageSize ∧ PageCount.kept m +
      ((r.inputIds.take (alignDown r.cachedLen m.pageSize)).length / m.pageSize -
        r.cacheHandle.cachedLen / m.pageSize) ≤ PageCount.kept (m.insert r) := by
  obtain ⟨ids, hids⟩ : ∃ ids, ids = r.inputIds.take (alignDown r.cachedLen m.pageSize) := ⟨_, rfl⟩
  unfold insert
  dsimp only
  rw [← hids]
  split_ifs with hpos
  · rw [insert_take]
    obtain ⟨kv, hkv⟩ : ∃ kv, kv = ((m.pageTable.row r.tableIdx 0 r.cachedLen).take
      (alignDown r.cachedLen m.pageSize)).take ids.length := ⟨_, rfl⟩
    have hlenkv : kv.length = ids.length := by
      have := alignDown_le r.cachedLen m.pageSize
      rw [hkv, hids, length_take, length_take, length_take, PageTable.length_row]
      omega
    obtain ⟨locks, hinv, hperm⟩ := h.inv
    obtain ⟨p, -, -, hins⟩ := SWARadixCache.insert_spec hinv hlenkv (p := r.cacheHandle.cachedLen)
      (h.pageSize ▸ he)
    obtain ⟨b, hb⟩ := SWARadixCache.exists_keepsTo m.prefixCache.nodes
      (ids.take (alignDown ids.length m.prefixCache.pageSize)) r.cacheHandle.cachedLen p
    obtain ⟨made, hins⟩ := hins b hb
    rw [← hkv]
    rcases hc : m.prefixCache.insert ids kv r.swaEvictedSeqlen
      r.cacheHandle.cachedLen with ⟨c, p', freed⟩
    rw [hc] at hins
    dsimp only at hins
    have hok : (m.withTree c).Ok (r.cacheHandle :: handles) := h.of_tree
      ⟨hins.fields.1, hins.fields.2.1⟩ ⟨locks, hins.fields.1 ▸ hins.inv, hperm⟩
    obtain ⟨hok₂, hsame₂⟩ := unlock_spec hok
    refine ⟨(hok₂.freeSwa freed).free freed, PageState.free_pageSize _ _, ?_⟩
    have hlen := length_valuesOf_add hins.slots
    have hle := alignDown_le ids.length m.pageSize
    rw [length_drop, length_take, hlenkv, h.pageSize, Nat.min_eq_left hle] at hlen
    have hdiv :=
      div_add_le_of_slots h.pos h.kv.wf.dvd_length_valuesOf hok.kv.wf.dvd_length_valuesOf hlen.ge
    have hgrow := sub_div_le_of_dvd (h.dvd_cachedLen List.mem_cons_self) (le_refl ids.length)
      (le_refl (alignDown ids.length m.pageSize))
    have hmono := Nat.div_le_div_right (c := m.pageSize) (Nat.sub_le_sub_left hb.le
      (alignDown ids.length m.pageSize))
    rw [Nat.sub_self, Nat.zero_add] at hgrow
    have hkept :
        PageCount.kept (((((m.withTree c).unlock r.cacheHandle)).freeSwa freed).free freed) =
        PageCount.kept (m.withTree c) + (stride m.pageSize freed).length := by
      rw [← hsame₂.kept]
      exact keptPages_free _ freed _
    rw [length_stride h.pos] at hkept
    refine le_trans ?_ hkept.ge
    show m.freePages.length + _ / m.pageSize + _ ≤ m.freePages.length + _ / m.pageSize + _
    omega
  · obtain ⟨hok, hsame⟩ := unlock_spec h
    refine ⟨hok, hsame.pageSize, ?_⟩
    have hnil : ids.length = 0 := by
      rw [hids, length_take]
      omega
    rw [hnil, Nat.zero_div, Nat.zero_sub, hsame.kept]
    exact le_rfl

theorem cacheReq_spec (h : m.Ok (r.cacheHandle :: handles)) (he : m.pageSize ∣ r.swaEvictedSeqlen)
    {r' : Req SWACacheHandle} (heq : m.cacheReq r = (m', r')) : m'.Ok (r'.cacheHandle :: handles) ∧
      m'.pageSize = m.pageSize ∧ r.SameSpan r' ∧ r'.inputIds = r.inputIds ∧ r'.Held ∧
      PageCount.kept m +
        (r'.cacheHandle.cachedLen / m.pageSize - r.cacheHandle.cachedLen / m.pageSize) ≤
        PageCount.kept m' := by
  obtain ⟨h₁, hps₁, hkept₁⟩ := insert_spec h he
  unfold cacheReq at heq
  dsimp only at heq
  obtain ⟨m₂, hm₂⟩ : ∃ m₂, m₂ = if 0 < (m.insert r).keepFrom (alignDown r.cachedLen m.pageSize) then
      ((m.insert r).matchPrefix (r.inputIds.take
        ((m.insert r).keepFrom (alignDown r.cachedLen m.pageSize)))).1 else m.insert r := ⟨_, rfl⟩
  have hcut : m₂.Ok handles ∧ SameCount (m.insert r) m₂ := by
    rw [hm₂]
    split_ifs
    · obtain ⟨h₂, hs₂, -⟩ := matchPrefix_spec h₁ (r.inputIds.take
        ((m.insert r).keepFrom (alignDown r.cachedLen m.pageSize)))
      exact ⟨h₂, hs₂⟩
    · exact ⟨h₁, .refl _⟩
  obtain ⟨h₂, hs₂⟩ := hcut
  rw [← hm₂] at heq
  obtain ⟨ids, hids⟩ : ∃ ids, ids = r.inputIds.take (alignDown r.cachedLen m.pageSize) := ⟨_, rfl⟩
  rw [← hids] at heq hkept₁
  obtain ⟨h₃, hs₃, hl, hnode, hle⟩ := matchPrefix_spec h₂ ids
  obtain ⟨h₄, hs₄⟩ := lock_spec h₃ hl
  have hlen : (m₂.matchPrefix ids).2.cachedLen ≤ r.cachedLen := by
    have h₁ : ids.length ≤ alignDown r.cachedLen m.pageSize := hids ▸ List.length_take_le _ _
    exact hle.trans (h₁.trans (alignDown_le _ _))
  have hheld : (m₂.matchPrefix ids).2.node = r.inputIds.take (m₂.matchPrefix ids).2.cachedLen :=
    hnode.trans (by rw [hids] at hle ⊢; exact take_take_of_le_length hle)
  have hgrow :=
    Nat.add_le_add_left (Nat.sub_le_sub_right (Nat.div_le_div_right (c := m.pageSize) hle)
    (r.cacheHandle.cachedLen / m.pageSize)) (PageCount.kept m)
  have hsame := (hs₂.trans hs₃).trans hs₄
  have hkept := hgrow.trans (hkept₁.trans hsame.kept.ge)
  have hps : PrefillCache.pageSize _ = m.pageSize := hsame.pageSize.trans hps₁
  split_ifs at heq
  · obtain ⟨rfl, rfl⟩ := Prod.mk.inj heq
    exact ⟨h₄.of_pageState rfl rfl, hps, ⟨rfl, rfl, rfl, rfl⟩, rfl, ⟨hheld, hlen⟩, hkept⟩
  · obtain ⟨rfl, rfl⟩ := Prod.mk.inj heq
    exact ⟨h₄, hps, ⟨rfl, rfl, rfl, rfl⟩, rfl, ⟨hheld, hlen⟩, hkept⟩

theorem retainPrompt_spec (h : m.Ok handles) :
    (m.retainPrompt r).Ok handles ∧ SameCount m (m.retainPrompt r) := by
  unfold retainPrompt
  dsimp only
  split_ifs with hpos hkeep
  · rcases hc : m.prefixCache.trimHeadSwa (r.inputIds.take (alignDown (r.maxDeviceLen - r.outputLen)
      m.pageSize)) (m.keepFrom (alignDown (r.maxDeviceLen - r.outputLen) m.pageSize)) with ⟨c, out⟩
    obtain ⟨locks, hinv, hperm⟩ := h.inv
    obtain ⟨hinv', ⟨hps, hwin, -⟩, hslots, -, -⟩ :=
      SWARadixCache.trimHeadSwa_spec h.window hinv _ _ hc.symm
    have hok : (m.withTree c).Ok handles := h.of_tree ⟨hps, hwin⟩ ⟨locks, hps ▸ hinv', hperm⟩
    have hsame : SameCount m (m.withTree c) := withTree_sameCount (length_valuesOf_congr hslots)
    obtain ⟨h₂, hs₂, -⟩ := matchPrefix_spec (hok.freeSwa out)
      (r.inputIds.take (alignDown (r.maxDeviceLen - r.outputLen) m.pageSize))
    have hsame₁ : SameCount m ((m.withTree c).freeSwa out) := ⟨rfl, id, hsame.kept⟩
    exact ⟨h₂, hsame₁.trans hs₂⟩
  · obtain ⟨h₂, hs₂, -⟩ := matchPrefix_spec h
      (r.inputIds.take (alignDown (r.maxDeviceLen - r.outputLen) m.pageSize))
    exact ⟨h₂, hs₂⟩
  · exact ⟨h, .refl m⟩

theorem cacheReqFinished_spec (h : m.Ok (r.cacheHandle :: handles))
    (he : m.pageSize ∣ r.swaEvictedSeqlen) : (m.cacheReqFinished r).Ok handles ∧
      (m.cacheReqFinished r).pageSize = m.pageSize ∧
      PageCount.kept m ≤ PageCount.kept (m.cacheReqFinished r) := by
  obtain ⟨h₁, hps₁, hkept₁⟩ := insert_spec h he
  unfold cacheReqFinished
  dsimp only
  obtain ⟨l, hl⟩ : ∃ l, l = (m.insert r).paddedTail r
    (alignDown r.cachedLen (m.insert r).pageSize) :=
    ⟨_, rfl⟩
  rw [← hl]
  obtain ⟨h₃, hs₃⟩ := retainPrompt_spec (r := r) ((h₁.freeSwa l).free l)
  refine ⟨h₃, hs₃.pageSize.trans ((PageState.free_pageSize _ _).trans hps₁), ?_⟩
  rw [hs₃.kept]
  exact (Nat.le_add_right _ _).trans (hkept₁.trans (free_le ((m.insert r).freeSwa l) l))

end SWACacheManager

instance {H : Heapq timestamp} : CountedCache (SWACacheManager H) SWACacheHandle where
  New m := ∃ (ps numPages window : ℕ) (pageTable : PageTable) (swaPool : HybridSWAKVCache),
    0 < ps ∧ 0 < window ∧ m = .init H ps numPages window pageTable swaPool
  AllocatePaged m reqs m' := m.allocatePaged reqs = some m'
  -- the scheduler lets go of the window in whole pages
  Commit m r m' r' := m.pageSize ∣ r.swaEvictedSeqlen ∧ m.cacheReq r = (m', r')
  Release m r m' := m.pageSize ∣ r.swaEvictedSeqlen ∧ m.cacheReqFinished r = m'
  Other m m' := ∃ s swaPool, LazyStep m.toPageState s ∧ m' = { m with toPageState := s, swaPool }
  Ok := SWACacheManager.Ok
  Lockable := SWACacheManager.Lockable
  new_spec h := by
    obtain ⟨ps, numPages, window, pageTable, swaPool, hps, hwin, rfl⟩ := h
    exact ⟨⟨hps, hwin, rfl, ⟨[], swaInv_nil hps, .refl _⟩, fun hd hm => absurd hm not_mem_nil⟩, rfl⟩
  pageSize_pos h := h.pos
  ok_perm h hp := h.of_perm hp
  handle_spec h hm := h.len _ hm
  availableSize_eq h hclosed := h.kv.available_eq hclosed
  matchReq_spec {m m' handles ids tic hd v} h heq := by
    obtain ⟨hok, hsame, hl, hnode, hle⟩ :=
      SWACacheManager.matchPrefix_spec h (ids.take (ids.length - 1))
    obtain ⟨rfl, hx⟩ := Prod.mk.inj heq
    obtain ⟨rfl, -⟩ := Prod.mk.inj hx
    exact ⟨hok, hl, hsame, hnode.trans (take_take_of_le_length hle)⟩
  lock_spec {m m' handles hd hd'} h hl heq := by
    obtain ⟨hok, hsame⟩ := SWACacheManager.lock_spec h hl
    obtain ⟨rfl, rfl⟩ := Prod.mk.inj (heq : m.lock hd = (m', hd'))
    exact ⟨hok, hsame, rfl, rfl⟩
  unlock_spec h := SWACacheManager.unlock_spec h
  ensureMambaSlots_spec _ h := ⟨h, .refl _⟩
  allocSlots_spec _ h := ⟨h, .refl _⟩
  freeStateSlots_spec _ h := ⟨h, .refl _⟩
  writeMatched_spec _ _ h := ⟨h.of_pageState rfl rfl, ⟨rfl, id, rfl⟩⟩
  other_spec h ho := by
    obtain ⟨s, swaPool, hs, rfl⟩ := ho
    exact ⟨h.of_pageState rfl hs.spec.1, hs.spec.1, hs.keptPages_eq _⟩
  allocatePaged_spec h ha := SWACacheManager.allocatePaged_spec h ha
  commit_spec h _ _ hc := SWACacheManager.cacheReq_spec h hc.1 hc.2
  release_spec h _ _ hc := by
    obtain ⟨he, rfl⟩ := hc
    exact SWACacheManager.cacheReqFinished_spec h he

/-! ### Admission -/

section admission

open PrefillCache PageCount CountedCache

variable {μ η : Type} [BaseCacheHandle η] [PrefillCache μ η] [CountedCache μ η]
  {freeSlots : μ → List Slot} {evictable : μ → ℤ} {allocates : μ → ℕ → Prop}

/-- The pages that a batch needs are free or evictable, and `_allocate` delivers them. -/
def FitsBatch (freeSlots : μ → List Slot) (evictable : μ → ℤ) (allocates : μ → ℕ → Prop) (m : μ)
    (reqs : List (Req η)) : Prop :=
  (neededPages (allocationInfo (pageSize m) reqs) : ℤ) ≤
      (freeSlots m).length + evictable m / pageSize m ∧
    allocates m (neededPages (allocationInfo (pageSize m) reqs))

/-- In every run over managers of the type `μ`, with any arrivals, lengths, prefix hits and budgets,
the chunks of a prefill batch and the next tokens of the running requests fit. -/
def NeverOvercommits (freeSlots : μ → List Slot) (evictable : μ → ℤ) (allocates : μ → ℕ → Prop) :
    Prop :=
  ∀ {α : Type} {s : ServeSys μ η α}, ServeRun s → Closed s.cache →
    (∀ prefillBudget tic pm b m,
      s.prefill.scheduleNextBatch s.decode.inflightTokens prefillBudget tic = some (pm, some b) →
        Other pm.cacheManager m → Closed m → FitsBatch freeSlots evictable allocates m b.reqs) ∧
    ∀ reqs, s.decode.scheduleNextBatch = some reqs → FitsBatch freeSlots evictable allocates s.cache
      reqs

theorem neverOvercommits (hsize : ∀ m : μ, availableSize m = evictable m + (freeSlots m).length *
      pageSize m) (halloc : ∀ {m : μ} {handles : List η} {n : ℕ}, Ok m handles →
      (n * pageSize m : ℕ) ≤ availableSize m → allocates m n) :
    NeverOvercommits freeSlots evictable allocates := by
  have hfits : ∀ {m : μ} {handles : List η} {reqs : List (Req η)}, Ok m handles →
      (neededPages (allocationInfo (pageSize m) reqs) * pageSize m : ℕ) ≤ availableSize m →
      FitsBatch freeSlots evictable allocates m reqs := by
    intro m handles reqs hok hle
    refine ⟨?_, halloc hok hle⟩
    have hpos : (0 : ℤ) < pageSize m := by exact_mod_cast pageSize_pos hok
    have hdiv : (neededPages (allocationInfo (pageSize m) reqs) - (freeSlots m).length : ℤ) ≤
        evictable m / pageSize m := by
      apply Int.le_ediv_of_mul_le hpos
      rw [hsize] at hle
      push_cast at hle
      linarith
    linarith
  intro α s h hclosed
  obtain ⟨hprefill, hdecode⟩ := allocate_fits h hclosed
  constructor
  · intro prefillBudget tic pm b m hb hm hc
    exact hfits (other_spec (h.inv.scheduled hclosed hb).ok hm).1
      (hprefill prefillBudget tic pm b m hb hm hc)
  · intro reqs hb
    exact hfits h.inv.ok (hdecode reqs hb)

end admission

/-- **Admission never over-commits the KV pool**, whichever tree the manager works over: a batch
never needs more pages than are free or evictable, so the assertion of `_allocate` holds. -/
theorem cacheManager_allocates :
    NeverOvercommits (fun m : CacheManager => m.freeSlots)
      (fun m => m.prefixCache.sizeInfo.evictable) (fun m n => ∀ H, (m.allocate H n).isSome) ∧
      ∀ H : Heapq timestamp,
        NeverOvercommits (fun m : HybridCacheManager H => m.freeSlots)
            (fun m => m.prefixCache.full.evictable) (fun m n => (m.allocate n).isSome) ∧
          NeverOvercommits (fun m : SWACacheManager H => m.freeSlots)
            (fun m => m.prefixCache.full.evictable) (fun m n => (m.allocate n).isSome) :=
  ⟨neverOvercommits (fun _ => rfl) fun {m : CacheManager} {handles _} h hn =>
      have h : 0 < m.pageSize ∧ m.prefixCache.Inv m.pageSize handles := h
      CacheManager.allocate_isSome h.1 h.2 hn,
    fun _ => ⟨neverOvercommits (fun _ => rfl) fun h hn => HybridCacheManager.allocate_isSome h hn,
      neverOvercommits (fun _ => rfl) fun h hn => SWACacheManager.allocate_isSome h hn⟩⟩

/-- A prompt of three tokens over three pages of two slots, and its first token to come, under
linear attention. -/
theorem cacheManager_allocates_run :
    ∃ s : ServeSys (HybridCacheManager (.ofScan timestamp)) HybridCacheHandle Unit,
      ServeRun s ∧ s.decode.runningReqs.map Req.cachedLen = [3] ∧
        ∀ reqs, s.decode.scheduleNextBatch = some reqs →
          (s.cache.allocate (neededPages (allocationInfo 2 reqs))).isSome := by
  have h₁ :=
    ServeRun.start (HybridCacheManager.init (.ofScan timestamp) 2 3 8 fun _ _ => 0) (.init 1)
    (none : Option (EncoderCache Unit)) false ⟨2, 3, 8, _, by decide, rfl⟩
  have h₂ := h₁.addOneReq _ { uid := 7, inputIds := [1, 2, 3], outputLen := 2 } rfl
  have h₃ := h₂.prefillBatch _ rfl 8 (fun _ => 1) _ _ _ _ rfl ⟨_, [1, 2, 3, 4], .refl, rfl⟩ rfl
  exact ⟨_, h₃, rfl, fun reqs hb => (((cacheManager_allocates.2 _).1 h₃ rfl).2 reqs hb).2⟩

end FreeToken
