import FreeToken.KvCache.RadixCache
import FreeToken.KvCache.Equiv.RadixTreeEvict

/-!
# Equivalence: `RadixPrefixCache` ↔ page tries

* `RadixSys`, `RadixStep`: a cache with its outstanding locks, under any sequence of calls.
* `RadixPrefixCache.evict_delivers`: an eviction within the promised size succeeds.
* `RadixRun.inv`: the invariant of every run.
* `radixPrefixCache_refines_pageTrie`: **every run of the cache is a run of a page trie**, so a
  match returns the longest resident prefix with the slots its pages were inserted with.
-/

namespace FreeToken

open List TrieEdge RadixTreeNode

variable {ps : ℕ} {locks : List Path}

/-- The invariant of the cache with outstanding locks on `locks`. -/
abbrev RadixPrefixCache.Inv (c : RadixPrefixCache) (locks : List Path) : Prop :=
  KvInv c.pageSize locks c.nodes c.sizes

variable {ids : List Token} {handle : RadixCacheHandle} {nodes nodes' : List RadixTreeNode}
  {idx : List Slot}

namespace RadixPrefixCache

variable {c : RadixPrefixCache}

/-! ### `match_prefix` -/

/-- What `match_prefix` does. -/
theorem matchPrefix_spec (h : c.Inv locks) (ids : List Token) (tic : ℤ) :
    ∃ c' m, c.matchPrefix ids tic = (c', ⟨m, ids.take m⟩) ∧ c'.pageSize = c.pageSize ∧
      Reshape c.pageSize c.nodes c'.nodes ∧ c'.sizes = c.sizes ∧
      IsAddress c'.nodes (ids.take m) ∧ IsLongest c.pageSize (Resident c.nodes) ids m := by
  obtain ⟨nodes', m, heq, hr, ha, hl⟩ := treeWalk_spec h.wf ids tic
  refine ⟨{ c with nodes := nodes' }, m, ?_, rfl, hr, rfl, ha, hl⟩
  simp only [matchPrefix, heq]

/-! ### `insert_prefix` -/

theorem wf_link_of_walk (h : WF ps nodes)
    (hr : Reshape ps nodes nodes') {m : ℕ} {now : ℤ}
    (ha : IsAddress nodes' (ids.take m)) (hl : IsLongest ps (Resident nodes) ids m)
    (hd : ps ∣ ids.length) (hne : m ≠ ids.length) (hidx : idx.length = ids.length) :
    WF ps (nodes' ++ [{ start := ids.take m, key := ids.drop m, value := idx.drop m
                        timestamp := now }]) := by
  have hlt : m < ids.length := lt_of_le_of_ne hl.le hne
  have h' := hr.wf h
  refine h'.link ha ?_ ?_ ?_ ?_
  · intro h0
    have := congrArg List.length h0
    simp only [length_drop, length_nil] at this
    omega
  · rw [length_drop]
    exact Nat.dvd_sub hd hl.dvd
  · simp [hidx]
  · exact fun k hk hks => h'.trie.page_ne_of_isLongest ((hr.isLongest_iff h).mpr hl) hd hlt hk hks

theorem insertPrefix_spec (h : c.Inv locks)
    (hidx : ids.length = idx.length) (tic now : ℤ) :
    ∃ c' m, c.insertPrefix ids idx tic now =
        (c', m, ⟨alignDown ids.length c.pageSize, ids.take (alignDown ids.length c.pageSize)⟩) ∧
      c'.pageSize = c.pageSize ∧ c'.Inv locks ∧
      IsAddress c'.nodes (ids.take (alignDown ids.length c.pageSize)) ∧
      IsLongest c.pageSize (Resident c.nodes) (ids.take (alignDown ids.length c.pageSize)) m ∧
      pages c.pageSize c'.nodes = (pages c.pageSize c.nodes).insert c.pageSize
        (ids.take (alignDown ids.length c.pageSize)) (idx.take (alignDown ids.length c.pageSize)) ∧
      (∀ g : List Slot → ℤ, Splits c.pageSize (fun n => g n.value) → g [] = 0 →
        total (fun n => g n.value) c'.nodes = total (fun n => g n.value) c.nodes +
          g ((idx.take (alignDown ids.length c.pageSize)).drop m)) ∧
      ∃ nodes', Reshape c.pageSize c.nodes nodes' ∧ (c'.nodes = nodes' ∨ ∃ n : RadixTreeNode,
        c'.nodes = nodes' ++ [n] ∧ n.refCount = 0 ∧ n.mambaValue = none ∧ n.mambaRefCount = 0 ∧
          stop n = ids.take (alignDown ids.length c.pageSize)) := by
  obtain ⟨L, hL⟩ : ∃ L, L = alignDown ids.length c.pageSize := ⟨_, rfl⟩
  have hle : L ≤ ids.length := hL ▸ alignDown_le _ _
  have hlen : (ids.take L).length = L := by rw [length_take]; omega
  have hleni : (idx.take L).length = L := by rw [length_take]; omega
  have hd : c.pageSize ∣ (ids.take L).length := by rw [hlen, hL]; exact dvd_alignDown _ _
  obtain ⟨nodes', m, heq, hr, ha, hl⟩ := treeWalk_spec h.wf (ids.take L) tic
  unfold insertPrefix
  simp only [← hL, heq]
  by_cases hm : m = L
  · -- the whole of the aligned prefix was there
    subst hm
    rw [if_neg (not_not.mpr rfl)]
    have htt : (ids.take m).take m = ids.take m := by rw [take_take, Nat.min_self]
    refine ⟨{ c with nodes := nodes' }, m, by rw [htt], rfl, hr.kvInv h, htt ▸ ha, hl, ?_,
      fun g hg h0 => ?_, nodes', hr, Or.inl rfl⟩
    · rw [hr.pages_eq h.wf, h.wf.trie.insert_of_isLongest _ (by rwa [hlen])]
    · rw [drop_of_length_le hleni.le, h0, add_zero]
      exact hr.total_eq h.wf hg
  · rw [if_pos hm]
    -- the rest of it becomes a leaf
    obtain ⟨n, hn⟩ : ∃ n : RadixTreeNode, n = ⟨(ids.take L).take m, (ids.take L).drop m,
      (idx.take L).drop m, now, 0, none, 0, false, 0, none⟩ := ⟨_, rfl⟩
    have hstop : stop n = ids.take L := by
      rw [hn]
      simp only [stop, start_eq, key_eq, take_append_drop]
    have hwf : WF c.pageSize (nodes' ++ [n]) := by
      rw [hn]
      exact wf_link_of_walk h.wf hr ha hl hd (by rwa [hlen]) (by rw [hlen, hleni])
    rw [← hn]
    refine ⟨⟨c.pageSize, nodes' ++ [n], { c.sizes with evictable := c.sizes.evictable + n.length }⟩,
      m, by rw [hstop], rfl, (hr.kvInv h).link hwf (by rw [hn]), ?_, hl, ?_, fun g hg _ => ?_,
      nodes', hr, Or.inr ⟨n, rfl, by rw [hn], by rw [hn], by rw [hn], hstop⟩⟩
    · exact Or.inr ⟨n, mem_append_right _ (mem_singleton_self _), hstop⟩
    · rw [← hr.pages_eq h.wf]
      exact (hr.wf h.wf).trie.pageAt_concat hwf.trie ((hr.isLongest_iff h.wf).mpr hl)
        (by rw [start_eq, hn]) (by rw [key_eq, hn]) (by rw [hn])
    · rw [total_append, total_cons, total_nil, add_zero, hr.total_eq h.wf hg, hn]

/-! ### `lock_handle` -/

theorem lockHandle_spec (h : c.Inv locks)
    (ha : IsAddress c.nodes handle.node) :
    (c.lockHandle handle false).Inv (handle.node :: locks) ∧
      SameCore c.nodes (c.lockHandle handle false).nodes :=
  KvInv.lock h ha

theorem unlockHandle_spec (h : c.Inv locks) (ha : handle.node ∈ locks) :
    (c.lockHandle handle true).Inv (locks.erase handle.node) ∧
      SameCore c.nodes (c.lockHandle handle true).nodes :=
  KvInv.unlock h ha

end RadixPrefixCache

/-! ### `evict` -/

variable {rs : List RadixTreeNode}

theorem Removes.ancestors_eq (hr : Removes nodes rs nodes')
    (h : WF ps nodes) {a : Path} (ha : IsAddress nodes' a) :
    ancestors nodes' a = ancestors nodes a := by
  have h' := hr.wf h
  induction ha using h'.trie.address_induct with
  | root => rfl
  | edge n hn ih =>
    rw [h'.trie.ancestors_stop hn, h.trie.ancestors_stop ((hr.mem_iff h).mp hn).1, ih]

/-- **What the size counters promise of an eviction.**  The counters are the sums over the nodes
by lock status, the unlocked nodes are closed under descendants, and an eviction of at most the
evictable size succeeds: it returns at least that many slots, taken from unlocked nodes, a least
recently used leaf at a time, and leaves every locked path as it is. -/
structure EvictionPromise (dead : RadixTreeNode → Bool) (locks : List Path)
    (nodes : List RadixTreeNode) (s : KvSizes)
    (evict : Heapq timestamp → ℕ → Option (List RadixTreeNode × List Slot)) : Prop where
  evictable : s.evictable = total evictableTokens nodes
  protectedSize : s.protectedSize = total protectedTokens nodes
  closed : ∀ n ∈ nodes, ∀ m ∈ nodes, n.refCount = 0 → stop n <+: stop m → m.refCount = 0
  delivers : ∀ H (size : ℕ), (size : ℤ) ≤ s.evictable → ∃ nodes' kv rs,
    evict H size = some (nodes', kv) ∧ size ≤ kv.length ∧ kv = valuesOf rs ∧
      LruEvicts dead nodes kv nodes' ∧ (∀ r ∈ rs, r ∈ nodes ∧ r.refCount = 0) ∧
      (∀ m, m ∈ nodes' ↔ m ∈ nodes ∧ m ∉ rs) ∧
      ∀ a ∈ locks, ancestors nodes' a = ancestors nodes a

/-- The tree a removal leaves, as an eviction promises it. -/
theorem KvInv.promise_of_removes {s : KvSizes}
    (h : KvInv ps locks nodes s) (hr : Removes nodes rs nodes') :
    (∀ r ∈ rs, r ∈ nodes ∧ r.refCount = 0) ∧ (∀ m, m ∈ nodes' ↔ m ∈ nodes ∧ m ∉ rs) ∧
      (∀ a ∈ locks, ancestors nodes' a = ancestors nodes a) ∧
      (valuesOf rs).length = tokensOf rs :=
  ⟨fun _ hm => hr.unlocked h.wf hm, fun _ => hr.mem_iff h.wf,
    fun a ha => hr.ancestors_eq h.wf ((hr.kvInv h).locked a ha),
    length_valuesOf fun _ hm => h.wf.value_len _ (hr.unlocked h.wf hm).1⟩

variable {size : ℕ}

/-- An eviction that stops only when no unlocked leaf is left frees what is evictable. -/
theorem Removes.delivered {s : KvSizes}
    (hr : Removes nodes rs nodes') (h : KvInv ps locks nodes s) (hsz : (size : ℤ) ≤ s.evictable)
    (hend : size ≤ tokensOf rs ∨ ∀ m, ¬UnlockedLeaf nodes' m) : size ≤ tokensOf rs := by
  rcases hend with hle | hnone
  · exact hle
  · by_contra hlt
    obtain ⟨m, hm⟩ := (hr.kvInv h).exists_unlockedLeaf_of_pos (by simp only; omega)
    exact hnone m hm

variable {H : Heapq timestamp}

namespace RadixPrefixCache

variable {c : RadixPrefixCache}

theorem cascade_never (nodes : List RadixTreeNode) (a : Path) :
    cascade (fun _ => false) nodes a = ⟨nodes, a, [], 0⟩ := by
  unfold cascade
  cases a.length with
  | zero => rfl
  | succ k =>
    unfold cascadeLoop
    cases edgeAt nodes a <;> simp

theorem evictLoop_round (h : c.Inv locks) {heap heap' : List RadixTreeNode}
    {n : RadixTreeNode} (hh : LeafHeap H c.nodes heap) (hp : H.heappop heap = some (n, heap')) :
    UnlockedLeaf c.nodes n ∧ (∀ m, UnlockedLeaf c.nodes m → n.timestamp ≤ m.timestamp) ∧
      LeafHeap H (unlinkNode c.nodes n) (pushParent H (unlinkNode c.nodes n) heap' n.start) := by
  obtain ⟨hn, hmin, hbut⟩ := hh.pop h.wf hp
  exact ⟨hn, hmin, (hbut.unlinkNode h.wf hn.1.1).pushParent (h.wf.unlinkNode hn.1.1 hn.1.2)
    (isAddress_unlinkNode_start h.wf hn.1)⟩

/-- The loop of `evict` frees what it is asked for as long as that much is evictable. -/
theorem evictLoop_spec (size : ℕ) :
    ∀ (fuel : ℕ) (c : RadixPrefixCache) (heap : List RadixTreeNode) (done : ℕ) (out : List Slot),
      c.Inv locks → LeafHeap H c.nodes heap → c.nodes.length < fuel →
      (size : ℤ) ≤ done + c.sizes.evictable →
      ∃ c' kv rs, evictLoop H size fuel c heap done out = some (c', out ++ kv) ∧
        c'.pageSize = c.pageSize ∧ Removes c.nodes rs c'.nodes ∧ kv = valuesOf rs ∧
        LruEvicts (fun _ => false) c.nodes kv c'.nodes ∧ size ≤ done + tokensOf rs ∧
        c'.Inv locks := by
  intro fuel
  induction fuel with
  | zero => intro c _ _ _ _ _ hf; omega
  | succ fuel ih =>
    intro c heap done out h hh hf hsz
    unfold evictLoop
    by_cases hlt : done < size
    · rw [if_pos hlt]
      cases hp : H.heappop heap with
      | none =>
        -- the promise leaves an unlocked leaf, so the heap is not empty
        exfalso
        obtain ⟨m, hm⟩ := h.exists_unlockedLeaf_of_pos (by omega)
        have := (hh.mem m).mpr hm
        rw [(H.heappop_eq_none _).mp hp] at this
        simp at this
      | some np =>
        obtain ⟨n, heap'⟩ := np
        obtain ⟨hn, hmin, hheap⟩ := evictLoop_round h hh hp
        have hcond : (decide (n.refCount = 0) && isLeaf c.nodes (stop n)) = true := by
          simp [hn.2, isLeaf_iff.mpr hn.1.2]
        simp only [hcond, if_true]
        have h' := KvInv.unlinkNode h hn.1.1 hn.1.2 hn.2
        have hlen := (Removes.cons hn (.nil _)).length_le h.wf
        rw [length_singleton] at hlen
        obtain ⟨c', kv, rs, heq, hps, hr, hkv, hlru, hdone, hinv⟩ := ih
          { c with nodes := unlinkNode c.nodes n
                   sizes := { c.sizes with evictable := c.sizes.evictable - n.length } }
          _ (done + n.length) (out ++ n.value) h' hheap (by simp only; omega)
          (by push_cast; omega)
        refine ⟨c', n.value ++ kv, n :: rs, ?_, hps, .cons hn hr, by simp [hkv], ?_, ?_, hinv⟩
        · rw [heq, append_assoc]
        · have := LruEvicts.pick hn hmin
            (by rw [cascade_never]; exact hlru)
          rwa [cascade_never, append_nil] at this
        · rw [tokensOf_cons]
          omega
    · rw [if_neg hlt]
      exact ⟨c, [], [], by simp, rfl, .nil _, rfl, .done _, by simp; omega, h⟩

theorem evict_spec (h : c.Inv locks)
    (hsz : (size : ℤ) ≤ c.sizes.evictable) :
    ∃ c' kv rs, c.evict H size = some (c', kv) ∧ c'.pageSize = c.pageSize ∧
      Removes c.nodes rs c'.nodes ∧ kv = valuesOf rs ∧
      LruEvicts (fun _ => false) c.nodes kv c'.nodes ∧ size ≤ tokensOf rs ∧ c'.Inv locks := by
  unfold evict
  by_cases h0 : size = 0
  · rw [if_pos h0]
    exact ⟨c, [], [], rfl, rfl, .nil _, rfl, .done _, by omega, h⟩
  · rw [if_neg h0, if_pos hsz]
    obtain ⟨c', kv, rs, heq, hps, hr, hkv, hlru, hdone, hinv⟩ := evictLoop_spec (H := H) size
      (c.nodes.length + 1) c _ 0 [] h (leafHeap_heapify h.wf) (by omega) (by push_cast; omega)
    exact ⟨c', kv, rs, by simpa using heq, hps, hr, hkv, hlru, by omega, hinv⟩

theorem evict_eq_some_iff (h : c.Inv locks) :
    (c.evict H size).isSome ↔ (size : ℤ) ≤ c.sizes.evictable ∨ size = 0 := by
  constructor
  · intro hs
    by_contra hno
    rw [not_or] at hno
    rw [evict, if_neg hno.2, if_neg hno.1] at hs
    simp at hs
  · rintro (hsz | h0)
    · obtain ⟨c', kv, rs, heq, -⟩ := evict_spec h (H := H) hsz
      simp [heq]
    · simp [evict, h0]

/-- **An eviction within the promised size delivers it.** -/
theorem evict_delivers (h : c.Inv locks) :
    EvictionPromise (fun _ => false) locks c.nodes c.sizes
      fun H size => (c.evict H size).map fun r => (r.1.nodes, r.2) where
  evictable := h.evictable
  protectedSize := h.protectedSize
  closed _ hn _ hm h0 hpre := h.ref_zero_of_prefix hn hm h0 hpre
  delivers H size hsz := by
    obtain ⟨c', kv, rs, heq, -, hr, rfl, hlru, hdone, -⟩ := evict_spec h (H := H) hsz
    obtain ⟨hun, hmem, hanc, hlen⟩ := h.promise_of_removes hr
    exact ⟨c'.nodes, _, rs, by rw [heq]; rfl, by omega, rfl, hlru, hun, hmem, hanc⟩

end RadixPrefixCache

/-! ### Runs of the cache -/

/-- A cache and the nodes its outstanding locks were taken on. -/
structure RadixSys where
  cache : RadixPrefixCache
  locks : List Path := []

/-- The calls of a client, with the event seen: a handle is locked while its node is in the tree,
and a lock is given back once. -/
inductive RadixStep : RadixSys → PageTrie.Event Token Slot → RadixSys → Prop
  | insertPrefix {c : RadixPrefixCache} {locks : List Path} (ids : List Token) (idx : List Slot)
      (tic now : ℤ) (hl : ids.length = idx.length) :
      RadixStep ⟨c, locks⟩
        (.inserted (ids.take (alignDown ids.length c.pageSize))
          (idx.take (alignDown ids.length c.pageSize)))
        ⟨(c.insertPrefix ids idx tic now).1, locks⟩
  | matchPrefix {c : RadixPrefixCache} {locks : List Path} (ids : List Token) (tic : ℤ) :
      RadixStep ⟨c, locks⟩
        (.matched ids (c.matchPrefix ids tic).2.cachedLen
          ((c.matchPrefix ids tic).1.matchedIndices (c.matchPrefix ids tic).2))
        ⟨(c.matchPrefix ids tic).1, locks⟩
  | lock {c : RadixPrefixCache} {locks : List Path} (handle : RadixCacheHandle)
      (ha : IsAddress c.nodes handle.node) :
      RadixStep ⟨c, locks⟩ .silent ⟨c.lockHandle handle false, handle.node :: locks⟩
  | unlock {c : RadixPrefixCache} {locks : List Path} (handle : RadixCacheHandle)
      (ha : handle.node ∈ locks) :
      RadixStep ⟨c, locks⟩ .silent ⟨c.lockHandle handle true, locks.erase handle.node⟩
  | evict {c c' : RadixPrefixCache} {locks : List Path} (H : Heapq timestamp) (size : ℕ)
      {out : List Slot} (he : c.evict H size = some (c', out)) :
      RadixStep ⟨c, locks⟩ (.evicted out) ⟨c', locks⟩

/-- The runs from an empty cache, with the events seen, oldest first. -/
inductive RadixRun (ps : ℕ) : List (PageTrie.Event Token Slot) → RadixSys → Prop
  | start : RadixRun ps [] ⟨{ pageSize := ps }, []⟩
  | step {evs : List (PageTrie.Event Token Slot)} {s s' : RadixSys}
      {ev : PageTrie.Event Token Slot} (h : RadixRun ps evs s) (hs : RadixStep s ev s') :
      RadixRun ps (evs ++ [ev]) s'

abbrev RadixSys.trie (s : RadixSys) : PageTrie Token Slot := pages s.cache.pageSize s.cache.nodes

variable {s s' : RadixSys} {ev : PageTrie.Event Token Slot}

/-- Every step keeps the invariant and the page size. -/
theorem RadixStep.inv (hs : RadixStep s ev s')
    (h : s.cache.Inv s.locks) : s'.cache.Inv s'.locks ∧ s'.cache.pageSize = s.cache.pageSize := by
  cases hs with
  | insertPrefix ids idx tic now hl =>
    obtain ⟨c', m, heq, hps, hinv, -⟩ := RadixPrefixCache.insertPrefix_spec h hl tic now
    simp only [heq]
    exact ⟨hinv, hps⟩
  | matchPrefix ids tic =>
    obtain ⟨c', m, heq, hps, hr, hsz, -⟩ := RadixPrefixCache.matchPrefix_spec h ids tic
    simp only [heq]
    refine ⟨?_, hps⟩
    have := hr.kvInv h
    unfold RadixPrefixCache.Inv
    rwa [hps, hsz]
  | lock handle ha => exact ⟨(RadixPrefixCache.lockHandle_spec h ha).1, rfl⟩
  | unlock handle ha => exact ⟨(RadixPrefixCache.unlockHandle_spec h ha).1, rfl⟩
  | evict H size he =>
    have hsome : (RadixPrefixCache.evict _ H size).isSome := Option.isSome_of_eq_some he
    rcases (RadixPrefixCache.evict_eq_some_iff h).mp hsome with hsz | h0
    · obtain ⟨c', kv, rs, heq, hps, -, -, -, -, hinv⟩ := RadixPrefixCache.evict_spec h (H := H) hsz
      rw [he] at heq
      obtain ⟨rfl, -⟩ := Prod.mk.inj (Option.some.inj heq)
      exact ⟨hinv, hps⟩
    · rw [RadixPrefixCache.evict, if_pos h0] at he
      obtain ⟨rfl, -⟩ := Prod.mk.inj (Option.some.inj he)
      exact ⟨h, rfl⟩

variable {evs : List (PageTrie.Event Token Slot)}

theorem RadixRun.inv (hps : 0 < ps)
    (h : RadixRun ps evs s) : s.cache.Inv s.locks ∧ s.cache.pageSize = ps := by
  induction h with
  | start => exact ⟨kvInv_nil hps, rfl⟩
  | step _ hs ih =>
    obtain ⟨hinv, hp⟩ := hs.inv ih.1
    exact ⟨hinv, hp.trans ih.2⟩

/-- The longest covered prefix is the longest prefix whose pages are all resident. -/
theorem isLongest_allPages (h : WF ps nodes) {m : ℕ}
    (hl : IsLongest ps (Resident nodes) ids m) :
    IsLongest ps ((pages ps nodes).AllPages ps) ids m where
  dvd := hl.dvd
  le := hl.le
  mem h0 q hq hne hd := pageAt_contains_iff.mpr ⟨hd, h.trie.resident_of_prefix (hl.mem h0) hq hne⟩
  max k hk hkl hres := by
    rcases Nat.eq_zero_or_pos k with rfl | hpos
    · exact Nat.zero_le m
    · have hlen : (ids.take k).length = k := by rw [length_take]; omega
      refine hl.max k hk hkl (pageAt_contains_iff.mp (hres _ prefix_rfl ?_ ?_)).2
      · exact ne_nil_of_length_pos (by omega)
      · rwa [hlen]

/-- **Every step of the cache is a step of the page trie it represents.** -/
theorem RadixStep.refines
    (hs : RadixStep s ev s') (h : s.cache.Inv s.locks) :
    PageTrie.Step s.cache.pageSize s.trie ev s'.trie := by
  have hps := (hs.inv h).2
  have hinv' := (hs.inv h).1
  unfold RadixSys.trie
  rw [hps]
  cases hs with
  | insertPrefix ids idx tic now hl =>
    obtain ⟨c', m, heq, -, -, -, -, hpg, -⟩ := RadixPrefixCache.insertPrefix_spec h hl tic now
    simp only [heq, hpg]
    exact .inserted _ _ _ (by rw [length_take, length_take, hl])
  | matchPrefix ids tic =>
    obtain ⟨c', m, heq, hp, hr, -, ha, hlong⟩ := RadixPrefixCache.matchPrefix_spec h ids tic
    simp only [heq, RadixPrefixCache.matchedIndices] at hinv' ⊢
    have hlen : (ids.take m).length = m := by rw [length_take]; exact Nat.min_eq_left hlong.le
    rw [getMatchedIndices_eq_lookup hinv'.wf ha, hp, hr.pages_eq h.wf, hlen]
    have hlook := PageTrie.Step.matched _ ids m (isLongest_allPages h.wf hlong)
    rwa [PageTrie.lookup_take _ hlong.dvd]
  | lock handle ha =>
    have hsame := (RadixPrefixCache.lockHandle_spec h ha).2
    simp only [hsame.pages_eq h.wf (hps ▸ hinv'.wf)]
    exact .silent _
  | unlock handle ha =>
    have hsame := (RadixPrefixCache.unlockHandle_spec h ha).2
    simp only [hsame.pages_eq h.wf (hps ▸ hinv'.wf)]
    exact .silent _
  | evict H size he =>
    have hsome : (RadixPrefixCache.evict _ H size).isSome := Option.isSome_of_eq_some he
    rcases (RadixPrefixCache.evict_eq_some_iff h).mp hsome with hsz | h0
    · obtain ⟨c', kv, rs, heq, -, hr, rfl, -⟩ := RadixPrefixCache.evict_spec h (H := H) hsz
      rw [he] at heq
      obtain ⟨rfl, rfl⟩ := Prod.mk.inj (Option.some.inj heq)
      exact .evicted (hr.evicts h.wf)
    · rw [RadixPrefixCache.evict, if_pos h0] at he
      obtain ⟨rfl, rfl⟩ := Prod.mk.inj (Option.some.inj he)
      exact .evicted (PageTrie.evicts_refl _)

theorem RadixRun.refines (hps : 0 < ps)
    (h : RadixRun ps evs s) : PageTrie.Run ps evs s.trie := by
  induction h with
  | start =>
    have hempty : pages ps [] = PageTrie.empty := by
      funext p
      exact pageAt_eq_none (by simp)
    unfold RadixSys.trie
    rw [hempty]
    exact .start
  | step h hs ih =>
    obtain ⟨hinv, hp⟩ := h.inv hps
    exact .step ih (hp ▸ hs.refines hinv)

/-- **`RadixPrefixCache` refines a page trie.**  Every run of the cache is, event for event, a run
of the page trie its nodes represent; a match in the state reached returns the longest
page-aligned prefix whose pages are all resident and changes no page; every slot a match of the run
returned was supplied at its position by an earlier insertion of a sequence that agrees with the
query up to there; and splitting a node changes no page. -/
theorem radixPrefixCache_refines_pageTrie (hps : 0 < ps) (h : RadixRun ps evs s) :
    PageTrie.Run ps evs s.trie ∧
      (∀ ids tic, IsLongest ps (s.trie.AllPages ps) ids (s.cache.matchPrefix ids tic).2.cachedLen ∧
        (s.cache.matchPrefix ids tic).1.matchedIndices (s.cache.matchPrefix ids tic).2 =
          s.trie.lookup ps ids (s.cache.matchPrefix ids tic).2.cachedLen ∧
        pages ps (s.cache.matchPrefix ids tic).1.nodes = s.trie) ∧
      (∀ (k : ℕ) ids len slots, evs[k]? = some (.matched ids len slots) → slots.length = len ∧
        ∀ i < len, ∃ ids' idx', PageTrie.Event.inserted ids' idx' ∈ evs.take k ∧
          ids'.take (i + 1) = ids.take (i + 1) ∧ slots[i]? = idx'[i]? ∧ i < idx'.length) ∧
      ∀ n ∈ s.cache.nodes, ∀ pos, CutAt ps n pos →
        pages ps (splitNode s.cache.nodes n pos) = s.trie := by
  obtain ⟨hinv, hp⟩ := h.inv hps
  have hrun := h.refines hps
  refine ⟨hrun, fun ids tic => ?_, fun k ids len slots hk => hrun.matched_supplied hps hk, ?_⟩
  · have hstep : RadixStep s _ _ := .matchPrefix (c := s.cache) ids tic
    have href := hstep.refines hinv
    rw [hp] at href
    obtain ⟨hl, hslots, hpg⟩ := href.matched_inv
    refine ⟨hl, hslots, ?_⟩
    rw [← hpg, RadixSys.trie, (hstep.inv hinv).2, hp]
  · intro n hn pos hc
    have := (hp ▸ hinv.wf : WF ps s.cache.nodes).pages_splitNode hn hc
    rw [this, RadixSys.trie, hp]

/-- A prompt and a query that leaves it in the middle. -/
theorem radixPrefixCache_refines_pageTrie_run :
    ∃ s, PageTrie.Run 1 [.inserted [1, 2, 3] [10, 11, 12], .matched [1, 2, 9] 2 [10, 11]]
      (RadixSys.trie s) :=
  ⟨_, (radixPrefixCache_refines_pageTrie (by decide)
    (.step (.step .start (.insertPrefix [1, 2, 3] [10, 11, 12] 1 2 rfl))
      (.matchPrefix [1, 2, 9] 3))).1⟩

end FreeToken
