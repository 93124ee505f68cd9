import FreeToken.KvCache.Equiv.HybridRadixCache
import FreeToken.KvCache.Equiv.SWARadixCache

/-!
# The three radix caches

What the plain, the hybrid and the sliding-window tree have in common.

* `radixCaches_evict_delivers`: **an eviction delivers what the size counters promise.**
* `radixCaches_leaves_alive`: **the second currency is alive on every leaf.**
-/

namespace FreeToken

open TrieEdge RadixTreeNode HybridRadixCache SWARadixCache

variable {ps window : ℕ}

/-! ### Eviction -/

/-- **An eviction delivers what the size counters promise**, in every reachable state of each of
the three trees; and the counters of the second currency are the sums over the nodes too. -/
theorem radixCaches_evict_delivers (hps : 0 < ps) (hwin : 0 < window) :
    (∀ evs s, RadixRun ps evs s →
      EvictionPromise (fun _ => false) s.locks s.cache.nodes s.cache.sizes
        fun H size => (s.cache.evict H size).map fun r => (r.1.nodes, r.2)) ∧
    (∀ s, HybridRun ps s →
      EvictionPromise hasNoSnapshot s.locks s.cache.nodes s.cache.full
          (fun H size =>
            some ((s.cache.evictFull H size).1.nodes, (s.cache.evictFull H size).2.kvIndices)) ∧
        s.cache.mamba.evictable = total mambaEvictable s.cache.nodes ∧
        s.cache.mamba.protectedSize = total mambaProtected s.cache.nodes) ∧
    ∀ flows s, SwaRun (fun _ _ => True) ps window flows s →
      EvictionPromise isTombstone (s.locks.map SwaLock.node) s.cache.nodes s.cache.full
          (fun H size =>
            some ((s.cache.evictFull H size).1.nodes, (s.cache.evictFull H size).2.kvIndices)) ∧
        s.cache.swa.evictable = total swaEvictableTokens s.cache.nodes ∧
        s.cache.swa.protectedSize = total swaProtectedTokens s.cache.nodes := by
  refine ⟨fun evs s h => ?_, fun s h => ?_, fun flows s h => ?_⟩
  · exact RadixPrefixCache.evict_delivers (h.inv hps).1
  · obtain ⟨hinv, -, -⟩ := h.spec hps
    exact ⟨hinv.promise, hinv.mamba.evictable, hinv.mamba.protectedSize⟩
  · obtain ⟨hinv, -, -, -⟩ := h.spec hps hwin
    exact ⟨hinv.promise, hinv.inv.evictable, hinv.inv.protectedSize⟩

/-- A prompt in each of the trees, and what the plain one evicts. -/
theorem radixCaches_evict_delivers_run :
    ∃ s : RadixSys, s.cache.sizes.evictable = 3 ∧
      ∃ nodes' kv, ((s.cache.evict (Heapq.ofScan timestamp) 2).map fun r => (r.1.nodes, r.2)) =
        some (nodes', kv) ∧ 2 ≤ kv.length := by
  have hrun : RadixRun 1 _ ⟨((RadixPrefixCache.mk 1 [] {}).insertPrefix [1, 2, 3] [10, 11, 12]
      1 2).1, []⟩ := .step .start (.insertPrefix [1, 2, 3] [10, 11, 12] 1 2 rfl)
  have hprom := (@radixCaches_evict_delivers 1 1 (by decide) (by decide)).1 _ _ hrun
  obtain ⟨nodes', kv, rs, heq, hle, -⟩ := hprom.delivers (Heapq.ofScan timestamp) 2 (by decide)
  exact ⟨_, by decide, nodes', kv, heq, hle⟩

/-! ### Leaves -/

/-- **The second currency is alive on every leaf.**  In every reachable state of the hybrid tree a
leaf has a snapshot, so has the node of every lock, which no step takes away from it, and a match
returns the deepest node of the matched path with a snapshot, or the root.  In every reachable
state of the sliding-window tree no leaf is a tombstone; the locks are on nodes that a match may
return. -/
theorem radixCaches_leaves_alive (hps : 0 < ps) (hwin : 0 < window) :
    (∀ s, HybridRun ps s →
      (∀ n ∈ s.cache.nodes, IsLeaf s.cache.nodes (stop n) → n.mambaValue.isSome) ∧
      (∀ n ∈ s.cache.nodes, stop n ∈ s.locks → n.mambaValue.isSome) ∧
      (∀ s', HybridStep s s' → KeepsSnapshots s.locks s.cache.nodes s'.cache.nodes) ∧
      ∀ ids tic c' r, (c', r) = s.cache.matchPrefix ids tic →
        SnapshotNode c'.nodes r.node ∧ r.node = ids.take r.cachedLen ∧
        ∃ m, IsLongest ps (Resident s.cache.nodes) ids m ∧ r.cachedLen ≤ m ∧
          (r.cachedLen = 0 ∧ r.node = [] ∧ r.mambaValue = none ∨
            ∃ n ∈ c'.nodes, stop n = r.node ∧ n.mambaValue = r.mambaValue ∧ n.mambaValue.isSome) ∧
          ∀ n ∈ c'.nodes, stop n <+: ids.take m → n.mambaValue.isSome →
            (stop n).length ≤ r.cachedLen) ∧
    ∀ flows s, SwaRun LiveNode ps window flows s →
      NoTombstoneLeaf s.cache.nodes ∧
      ∀ ids, IsAddress (s.cache.matchPrefix ids).1.nodes (s.cache.matchPrefix ids).2.node ∧
        LiveNode (s.cache.matchPrefix ids).1.nodes (s.cache.matchPrefix ids).2.node := by
  refine ⟨fun s h => ?_, fun flows s h => ?_⟩
  · obtain ⟨hinv, hp, hla⟩ := h.spec hps
    refine ⟨fun n hn hleaf => ?_, hinv.mamba.snapshot, fun s' hs => (hs.spec hinv).2.2.1,
      fun ids tic c' r hr => ?_⟩
    · simpa [hasNoSnapshot, Option.isSome_iff_ne_none] using hla n hn hleaf
    · obtain ⟨m, hm⟩ := HybridRadixCache.matchPrefix_spec hinv.kv.wf ids tic
      rw [← hr] at hm
      have hle : r.cachedLen ≤ ids.length := hm.le.trans hm.longest.le
      refine ⟨hm.snapshotNode, hm.node_eq, m, hp ▸ hm.longest, hm.le, ?_, hm.max⟩
      rcases hm.snapshot with ⟨h0, hv⟩ | hn
      · have hlen := congrArg List.length (h0.symm.trans hm.node_eq)
        rw [List.length_nil, List.length_take, Nat.min_eq_left hle] at hlen
        exact Or.inl ⟨hlen.symm, h0, hv⟩
      · exact Or.inr hn
  · exact ⟨(h.noTombstoneLeaf hps hwin).2, liveNode_matchPrefix (h.spec hps hwin).1⟩

/-- A match that ends above the end of the only node with a snapshot. -/
theorem radixCaches_leaves_alive_run :
    ∃ s : HybridSys, (s.cache.matchPrefix [1, 2, 9] 3).2.cachedLen = 0 ∧
      ∀ n ∈ s.cache.nodes, IsLeaf s.cache.nodes (stop n) → n.mambaValue.isSome := by
  have hrun : HybridRun 1 ⟨((HybridRadixCache.mk 1 [] {} {}).insert [1, 2, 3] [10, 11, 12] 7
      1 2).1, []⟩ := .step .start (.insert [1, 2, 3] [10, 11, 12] 7 1 2 rfl)
  exact ⟨_, by decide, ((@radixCaches_leaves_alive 1 1 (by decide) (by decide)).1 _ hrun).1⟩

end FreeToken
