import FreeToken.KvCache.Equiv.SWAInsert

/-!
# The evictions of `SWARadixCache`

* `LocksLive`: the node of every lock is live, which a handle of `match_prefix` guarantees.
* `SWARadixCache.evictFull_spec`: `evict_full` removes unlocked leaves, least recently used first,
  and the tombstones this exposes.
* `SWARadixCache.evictSwa_spec`, `SWARadixCache.trimHeadSwa_spec`: `evict_swa` and `trim_head_swa`
  give back the window copies of nodes that no window lock covers.
* Each of them keeps `SwaInv`, accounts for every slot and window copy, and leaves no tombstoned
  leaf behind.
-/

namespace FreeToken

open List TrieEdge RadixTreeNode SWARadixCache

variable {ps : ℕ} {locks : List SwaLock} {nodes nodes' : List RadixTreeNode}
  {n n' : RadixTreeNode} {full swa : KvSizes} {uuid : ℕ}

/-! ### Locks on live nodes -/

/-- Every lock is on the root or on a live node. -/
def LocksLive (locks : List SwaLock) (nodes : List RadixTreeNode) : Prop :=
  ∀ L ∈ locks, ∀ n ∈ nodes, stop n = L.node → n.swaTombstone = false

/-- The live node of a lock is in the window of the lock. -/
theorem SwaInv.swaRef_pos_of_lock (h : SwaInv ps locks nodes full swa uuid) {L : SwaLock}
    (hL : L ∈ locks) (hn : n ∈ nodes) (hnL : stop n = L.node) (hlive : n.swaTombstone = false) :
    0 < n.swaRefCount := by
  rw [h.swaRef n hn]
  refine swaLockCount_pos hL ⟨by rw [hnL], ?_, hlive⟩
  refine h.windowStart_le_of_lt hL hn (by rw [hnL]) ?_
  rw [hnL]
  exact h.windowStart_lt hL (hnL ▸ h.wf.trie.stop_ne_nil hn)

theorem SwaInv.lock_of_leaf (h : SwaInv ps locks nodes full swa uuid) (hn : TreeLeaf nodes n)
    (h0 : n.refCount ≠ 0) : ∃ L ∈ locks, stop n = L.node := by
  obtain ⟨L, hL, hLn⟩ := List.mem_map.mp (h.kv.mem_locks_of_leaf hn h0)
  exact ⟨L, hL, hLn.symm⟩

theorem LocksLive.mono (h : LocksLive locks nodes) (hsub : ∀ m ∈ nodes', m ∈ nodes) :
    LocksLive locks nodes' :=
  fun L hL m hm => h L hL m (hsub m hm)

theorem LocksLive.of_persists (h : LocksLive locks nodes)
    (ha : ∀ L ∈ locks, IsAddress nodes L.node) (hp : LivePersists nodes nodes')
    (hw' : WF ps nodes') :
    LocksLive locks nodes' := by
  intro L hL m hm hmL
  rcases ha L hL with h0 | ⟨n, hn, hnL⟩
  · exact absurd (hmL.trans h0) (hw'.trie.stop_ne_nil hm)
  · exact hp n hn (h L hL n hn hnL) m hm (hmL.trans hnL.symm)

theorem SwaInv.isAddress (h : SwaInv ps locks nodes full swa uuid) {L : SwaLock} (hL : L ∈ locks) :
    IsAddress nodes L.node :=
  h.kv.locked _ (mem_map_of_mem hL)

/-! ### Taking out a leaf -/

theorem takeSwa_spec {t : ℤ × List Slot} (hs : n.swaRefCount = 0) (x : Slot) :
    (takeSwa t n).1 = t.1 - swaEvictableTokens n ∧
      ((takeSwa t n).2.count x : ℤ) = t.2.count x + liveCount x n := by
  unfold takeSwa swaEvictableTokens liveCount slotCount
  cases n.swaTombstone <;> simp [hs]

/-- What taking out an unlocked leaf and the tombstones this exposes does to the tree. -/
theorem evictLeaf_spec (h : SwaInv ps locks nodes full swa uuid) (hn : UnlockedLeaf nodes n)
    {r : Cascade} (hr : r = cascade isTombstone (unlinkNode nodes n) n.start) :
    ∃ rs, Removes nodes (n :: rs) r.nodes ∧ r.kv = valuesOf rs ∧ r.freed = tokensOf rs ∧
      (∀ m ∈ rs, m.swaTombstone = true) ∧ SwaInv ps locks r.nodes
        { full with evictable := full.evictable - n.length - r.freed }
        { swa with evictable := swa.evictable - swaEvictableTokens n } uuid ∧
      (∀ x, total (liveCount x) r.nodes = total (liveCount x) nodes - liveCount x n) ∧
      (LocksLive locks nodes → NoTombstoneLeaf nodes → NoTombstoneLeaf r.nodes) := by
  obtain ⟨rs, hs⟩ := cascade_spec (h.wf.unlinkNode hn.1.1 hn.1.2)
    (isAddress_unlinkNode_start h.wf hn.1)
  rw [← hr] at hs
  have hrem : Removes nodes (n :: rs) r.nodes := .cons hn hs.removes
  have hdead : ∀ m ∈ rs, m.swaTombstone = true := hs.dead_of_mem
  have hinv := h.removes hrem
  have hevict : total swaEvictableTokens (n :: rs) = swaEvictableTokens n := by
    rw [total_cons, total_eq_zero fun m hm => by simp [swaEvictableTokens, hdead m hm], add_zero]
  have hfull : full.evictable - (tokensOf (n :: rs) : ℤ) =
      full.evictable - n.length - r.freed := by
    rw [hs.freed, tokensOf_cons]
    push_cast
    ring
  rw [hevict, hfull] at hinv
  refine ⟨rs, hrem, hs.kv, hs.freed, hdead, hinv, fun x => ?_, fun hlive hno => ?_⟩
  · have h0 : total (liveCount x) rs = 0 :=
      total_eq_zero fun m hm => by simp [liveCount, hdead m hm]
    rw [hrem.total_eq h.wf, total_cons, h0, add_zero]
  · refine hno.cascade h.wf hn.1 hs (fun m hm h0 => ?_)
    obtain ⟨L, hL, hmL⟩ := hinv.lock_of_leaf hm h0
    exact hlive L hL m ((hrem.mem_iff h.wf).mp hm.1).1 hmL

/-! ### Tombstoning a node -/

theorem tombstone_spec (h : SwaInv ps locks nodes full swa uuid) (hn : n ∈ nodes)
    (hlive : n.swaTombstone = false) (h0 : n.swaRefCount = 0) :
    SwaInv ps locks (setNode nodes n { n with swaTombstone := true }) full
        { swa with evictable := swa.evictable - n.length } uuid ∧
      (∀ x, total (slotCount x) (setNode nodes n { n with swaTombstone := true }) =
        total (slotCount x) nodes) ∧
      (∀ x, total (liveCount x) (setNode nodes n { n with swaTombstone := true }) =
        total (liveCount x) nodes - slotCount x n) ∧
      (LocksLive locks nodes →
        LocksLive locks (setNode nodes n { n with swaTombstone := true })) ∧
      (NoTombstoneLeaf nodes → ¬IsLeaf nodes (stop n) →
        NoTombstoneLeaf (setNode nodes n { n with swaTombstone := true })) := by
  obtain ⟨n', hn'⟩ : ∃ n', n' = { n with swaTombstone := true } := ⟨_, rfl⟩
  rw [← hn']
  have hs : n'.start = n.start := by rw [hn']
  have hk : n'.key = n.key := by rw [hn']
  have hstop : stop n' = stop n := by simp [stop, hs, hk]
  have hlen : n'.value.length = n.value.length := by rw [hn']
  have hset := h.setNode hn hs hk hlen (by rw [hn']) (by rw [hn']) (by rw [hn'])
    (Or.inr (Or.inl ⟨by rw [hn'], h0⟩))
  have h₁ : swaEvictableTokens n = n.length := by simp [swaEvictableTokens, hlive, h0]
  have h₂ : swaEvictableTokens n' = 0 := by simp [swaEvictableTokens, hn']
  rw [h₁, h₂, add_zero] at hset
  refine ⟨hset, fun x => ?_, fun x => ?_, fun hl L hL m hm hmL => ?_,
    fun hno hin => hno.setNode_inner h.wf hn hs hk hin⟩
  · have : slotCount x n' = slotCount x n := by rw [hn']; rfl
    rw [h.wf.total_setNode hn, this]
    ring
  · have g₁ : liveCount x n' = 0 := by simp [liveCount, hn']
    have g₂ : liveCount x n = slotCount x n := by simp [liveCount, hlive]
    rw [h.wf.total_setNode hn, g₁, g₂]
    ring
  · rcases (h.wf.mem_setNode hn).mp hm with rfl | ⟨hm, -⟩
    · -- the node of a lock is covered by it
      exact absurd h0 (h.swaRef_pos_of_lock hL hn (hstop ▸ hmL) hlive).ne'
    · exact hl L hL m hm hmL

namespace SWARadixCache

variable {c : SWARadixCache}

/-! ### `evict_full` -/

theorem evictFull_spec (h : SwaInv c.pageSize locks c.nodes c.full c.swa c.uuid)
    (H : Heapq timestamp) (k : ℕ) {c' : SWARadixCache} {r : SWAEvictResult}
    (hr : (c', r) = c.evictFull H k) :
    ∃ rs, Removes c.nodes rs c'.nodes ∧ r.kvIndices = valuesOf rs ∧
      LruEvicts isTombstone c.nodes (valuesOf rs) c'.nodes ∧
      (k ≤ tokensOf rs ∨ ∀ m, ¬UnlockedLeaf c'.nodes m) ∧
      SwaInv c.pageSize locks c'.nodes c'.full c'.swa c'.uuid ∧
      (c'.pageSize = c.pageSize ∧ c'.slidingWindowSize = c.slidingWindowSize ∧
        c'.uuid = c.uuid) ∧
      (∀ x, total (liveCount x) c'.nodes + (r.swaIndices.count x : ℕ) =
        total (liveCount x) c.nodes) ∧
      (LocksLive locks c.nodes → NoTombstoneLeaf c.nodes →
        LocksLive locks c'.nodes ∧ NoTombstoneLeaf c'.nodes) := by
  -- what the rounds keep beside the removed nodes
  let M : EvictState (ℤ × List Slot) → Prop := fun s =>
    SwaInv c.pageSize locks s.nodes { c.full with evictable := s.fullEvictable }
        { c.swa with evictable := s.extra.1 } c.uuid ∧
      (∀ x, total (liveCount x) s.nodes + (s.extra.2.count x : ℕ) = total (liveCount x) c.nodes) ∧
      (LocksLive locks c.nodes → NoTombstoneLeaf c.nodes →
        LocksLive locks s.nodes ∧ NoTombstoneLeaf s.nodes)
  obtain ⟨rs, hs, hM, hend⟩ := evictFullLoop_spec isTombstone takeSwa k (M := M)
    (fun s n heap' hwf hh hp hM => by
      obtain ⟨hn, -, -⟩ := hh.pop hwf hp
      obtain ⟨hinv, hled, hlive⟩ := hM
      obtain ⟨rs, hrem, -, -, -, hinv', hled', hno⟩ := evictLeaf_spec hinv hn rfl
      have htake := takeSwa_spec (t := s.extra) (hinv.swaRef_of_unlocked hn.1.1 hn.2)
      refine ⟨?_, fun x => ?_, fun hl hnl => ?_⟩
      · simp only [evictNode, (htake 0).1]
        exact hinv'
      · have h₁ := hled x
        have h₂ := hled' x
        have h₃ := (htake x).2
        simp only [evictNode]
        omega
      · obtain ⟨hl', hnl'⟩ := hlive hl hnl
        exact ⟨hl'.mono fun m hm => ((hrem.mem_iff hwf).mp hm).1, hno hl' hnl'⟩)
    (c.nodes.length + 1)
    { nodes := c.nodes, fullEvictable := c.full.evictable, extra := (c.swa.evictable, [])
      heap := H.heapify (evictableLeaves c.nodes) } h.wf (leafHeap_heapify h.wf) (by simp)
    ⟨h, fun x => by simp, fun hl hnl => ⟨hl, hnl⟩⟩
  obtain ⟨hc', hr'⟩ := Prod.mk.inj hr
  obtain ⟨kv, hkv, hlru⟩ := hs.lru
  have hkv' := hs.kv
  have hfreed := hs.freed
  rw [hkv, append_cancel_left_eq] at hkv'
  rw [nil_append] at hkv
  rw [zero_add] at hfreed
  rw [hc', hr']
  refine ⟨rs, hs.removes, by simp only [hkv, hkv'], hkv' ▸ hlru, hfreed ▸ hend, hM.1,
    ⟨rfl, rfl, rfl⟩, hM.2.1, hM.2.2⟩

/-! ### `evict_swa` -/

/-- A candidate of `evict_swa`: a live node that no window lock covers. -/
def SwaCand (nodes : List RadixTreeNode) (n : RadixTreeNode) : Prop :=
  n ∈ nodes ∧ n.swaTombstone = false ∧ n.swaRefCount = 0

/-- The loop invariant of `evict_swa`. -/
structure EvictSwaInv (locks : List SwaLock) (c : SWARadixCache) (s : EvictSwaState) : Prop where
  inv : SwaInv c.pageSize locks s.nodes { c.full with evictable := s.fullEvictable }
    { c.swa with evictable := s.swaEvictable } c.uuid
  nodup : s.cands.Nodup
  cands : ∀ n, n ∈ s.cands ↔ SwaCand s.nodes n
  freed : s.freed = s.swa.length
  kv_nil : s.freed = 0 → s.kv = []
  slots : ∀ x, total (slotCount x) s.nodes + (s.kv.count x : ℕ) = total (slotCount x) c.nodes
  live : ∀ x, total (liveCount x) s.nodes + (s.swa.count x : ℕ) = total (liveCount x) c.nodes
  noTombstoneLeaf : LocksLive locks c.nodes → NoTombstoneLeaf c.nodes →
    LocksLive locks s.nodes ∧ NoTombstoneLeaf s.nodes

/-- One round of the loop of `evict_swa`. -/
theorem EvictSwaInv.round {s : EvictSwaState} {cands : List RadixTreeNode}
    (h : EvictSwaInv locks c s)
    (hp : s.cands.Perm (n :: cands)) : EvictSwaInv locks c (evictSwaNode s n cands) := by
  have hnd : (n :: cands).Nodup := hp.nodup_iff.mp h.nodup
  rw [nodup_cons] at hnd
  obtain ⟨hn, hlive, h0⟩ := (h.cands n).mp (hp.mem_iff.mpr mem_cons_self)
  have hmem : ∀ m, m ∈ cands ↔ SwaCand s.nodes m ∧ m ≠ n := by
    intro m
    rw [← h.cands m, hp.mem_iff, mem_cons]
    constructor
    · exact fun hm => ⟨Or.inr hm, fun heq => hnd.1 (heq ▸ hm)⟩
    · rintro ⟨hm | hm, hne⟩
      · exact absurd hm hne
      · exact hm
  have hlen : n.length = n.value.length := (h.inv.wf.value_len n hn).symm
  have hev : swaEvictableTokens n = n.length := by simp [swaEvictableTokens, hlive, h0]
  have hlc : ∀ x, liveCount x n = slotCount x n := fun x => by simp [liveCount, hlive]
  have hpos : s.freed + n.length ≠ 0 := by
    have := length_pos_iff.mpr (h.inv.wf.trie.key_ne n hn)
    have : 0 < n.length := this
    omega
  unfold evictSwaNode
  split
  · next hc =>
    -- a free leaf goes with its KV
    have hu : UnlockedLeaf s.nodes n := by
      simp only [Bool.and_eq_true, isLeaf_iff, decide_eq_true_eq] at hc
      exact ⟨⟨hn, hc.1⟩, hc.2⟩
    obtain ⟨rs, hrem, hkv, hfr, hdead, hinv, hled, hno⟩ := evictLeaf_spec h.inv hu rfl
    rw [hev] at hinv
    have hiff := fun m => hrem.mem_iff h.inv.wf (m := m)
    refine ⟨hinv, hnd.2, fun m => ?_, ?_, fun hz => absurd hz hpos, fun x => ?_, fun x => ?_,
      fun hl hnl => ?_⟩
    · -- the tombstones that go with the leaf were no candidates
      rw [hmem]
      unfold SwaCand
      rw [hiff, mem_cons]
      constructor
      · rintro ⟨⟨hm, hml, hm0⟩, hne⟩
        refine ⟨⟨hm, ?_⟩, hml, hm0⟩
        rintro (rfl | hmr)
        · exact hne rfl
        · rw [hdead m hmr] at hml
          exact absurd hml (by decide)
      · rintro ⟨⟨hm, hno'⟩, hml, hm0⟩
        exact ⟨⟨hm, hml, hm0⟩, fun heq => hno' (Or.inl heq)⟩
    · simp only [length_append, h.freed, hlen]
    · have h₁ := hrem.total_eq h.inv.wf (slotCount x)
      have h₂ := h.slots x
      have h₃ := count_valuesOf rs x
      rw [total_cons] at h₁
      simp only [hkv, count_append]
      have h₄ : slotCount x n = (n.value.count x : ℕ) := rfl
      push_cast
      omega
    · have h₁ := hled x
      have h₂ := h.live x
      have h₃ := hlc x
      have h₄ : slotCount x n = (n.value.count x : ℕ) := rfl
      simp only [count_append]
      push_cast
      omega
    · obtain ⟨hl', hnl'⟩ := h.noTombstoneLeaf hl hnl
      exact ⟨hl'.mono fun m hm => ((hiff m).mp hm).1, hno hl' hnl'⟩
  · next hc =>
    -- an internal or locked node stays, without its window copy
    obtain ⟨hinv, hsl, hled, hll, hnt⟩ := tombstone_spec h.inv hn hlive h0
    refine ⟨hinv, hnd.2, fun m => ?_, ?_, fun hz => absurd hz hpos, fun x => ?_, fun x => ?_,
      fun hl hnl => ?_⟩
    · rw [hmem]
      unfold SwaCand
      rw [h.inv.wf.mem_setNode hn]
      constructor
      · rintro ⟨⟨hm, hml, hm0⟩, hne⟩
        exact ⟨Or.inr ⟨hm, hne⟩, hml, hm0⟩
      · rintro ⟨rfl | ⟨hm, hne⟩, hml, hm0⟩
        · simp at hml
        · exact ⟨⟨hm, hml, hm0⟩, hne⟩
    · simp only [length_append, h.freed, hlen]
    · simp only [hsl x]
      exact h.slots x
    · have h₁ := hled x
      have h₂ := h.live x
      have h₄ : slotCount x n = (n.value.count x : ℕ) := rfl
      simp only [count_append]
      push_cast
      omega
    · obtain ⟨hl', hnl'⟩ := h.noTombstoneLeaf hl hnl
      refine ⟨hll hl', hnt hnl' fun hleaf => hc ?_⟩
      -- a locked leaf is the node of a lock, whose window covers it
      rw [Bool.and_eq_true, isLeaf_iff, decide_eq_true_eq]
      refine ⟨hleaf, by_contra fun href => ?_⟩
      obtain ⟨L, hL, hnL⟩ := h.inv.lock_of_leaf ⟨hn, hleaf⟩ href
      exact absurd h0 (h.inv.swaRef_pos_of_lock hL hn hnL hlive).ne'

theorem evictSwaLoop_spec {H : Heapq timestamp} {k : ℕ} :
    ∀ (fuel : ℕ) (s : EvictSwaState), EvictSwaInv locks c s → s.cands.length < fuel →
      EvictSwaInv locks c (evictSwaLoop H k fuel s) ∧
        (k ≤ (evictSwaLoop H k fuel s).freed ∨
          ∀ n, ¬SwaCand (evictSwaLoop H k fuel s).nodes n) := by
  intro fuel
  induction fuel with
  | zero => intro s _ hf; omega
  | succ fuel ih =>
    intro s h hf
    unfold evictSwaLoop
    by_cases hlt : s.freed < k
    swap
    · rw [if_neg hlt]
      exact ⟨h, Or.inl (not_lt.mp hlt)⟩
    rw [if_pos hlt]
    cases hp : H.heappop s.cands with
    | none =>
      refine ⟨h, Or.inr fun n hn => ?_⟩
      have := (h.cands n).mpr hn
      rw [(H.heappop_eq_none _).mp hp] at this
      simp at this
    | some np =>
      obtain ⟨n, cands⟩ := np
      have hperm := H.heappop_perm _ _ _ hp
      obtain ⟨-, hlive, h0⟩ := (h.cands n).mp (hperm.mem_iff.mpr mem_cons_self)
      have hlen := hperm.length_eq
      rw [length_cons] at hlen
      have hcands : (evictSwaNode s n cands).cands = cands := by
        unfold evictSwaNode
        split <;> rfl
      simp only [hlive, h0, ne_eq, not_true_eq_false, decide_false, Bool.or_false,
        Bool.false_eq_true, if_false]
      exact ih _ (h.round hperm) (by rw [hcands]; omega)

theorem evictSwa_spec (h : SwaInv c.pageSize locks c.nodes c.full c.swa c.uuid)
    (H : Heapq timestamp) (k : ℕ) {c' : SWARadixCache} {r : SWAEvictResult}
    (hr : (c', r) = c.evictSwa H k) :
    SwaInv c.pageSize locks c'.nodes c'.full c'.swa c'.uuid ∧
      (c'.pageSize = c.pageSize ∧ c'.slidingWindowSize = c.slidingWindowSize ∧
        c'.uuid = c.uuid) ∧
      (∀ x, total (slotCount x) c'.nodes + (r.kvIndices.count x : ℕ) =
        total (slotCount x) c.nodes) ∧
      (∀ x, total (liveCount x) c'.nodes + (r.swaIndices.count x : ℕ) =
        total (liveCount x) c.nodes) ∧
      (k ≤ r.swaIndices.length ∨ ∀ n, ¬SwaCand c'.nodes n) ∧
      (r.swaIndices = [] → r.kvIndices = []) ∧
      (LocksLive locks c.nodes → NoTombstoneLeaf c.nodes →
        LocksLive locks c'.nodes ∧ NoTombstoneLeaf c'.nodes) := by
  have hstart : EvictSwaInv locks c
      { nodes := c.nodes, fullEvictable := c.full.evictable, swaEvictable := c.swa.evictable
        cands := H.heapify (c.nodes.filter fun n => !n.swaTombstone && n.swaRefCount = 0) } := by
    refine ⟨h, H.nodup_heapify.mpr (h.wf.nodup.filter _), fun n => ?_, rfl, fun _ => rfl,
      fun x => by simp, fun x => by simp, fun hl hnl => ⟨hl, hnl⟩⟩
    rw [H.mem_heapify]
    simp [SwaCand]
  obtain ⟨hinv, hend⟩ := evictSwaLoop_spec (H := H) (k := k) (c.nodes.length + 1) _ hstart (by
    have h₁ := (H.heapify_perm (c.nodes.filter fun n =>
      !n.swaTombstone && n.swaRefCount = 0)).length_eq
    have h₂ := length_filter_le (fun n : RadixTreeNode =>
      !n.swaTombstone && n.swaRefCount = 0) c.nodes
    simp only
    omega)
  obtain ⟨hc', hr'⟩ := Prod.mk.inj hr
  rw [hc', hr']
  refine ⟨hinv.inv, ⟨rfl, rfl, rfl⟩, hinv.slots, hinv.live, ?_, fun hz => hinv.kv_nil ?_,
    hinv.noTombstoneLeaf⟩
  · rwa [hinv.freed] at hend
  · rw [hinv.freed]
    exact congrArg List.length hz

/-! ### `trim_head_swa` -/

/-- What `trim_head_swa` does on its way down. -/
structure TrimSpec (ps : ℕ) (locks : List SwaLock) (nodes : List RadixTreeNode) (full swa : KvSizes)
    (uuid : ℕ) (nodes' : List RadixTreeNode) (swaEvictable : ℤ) (freed : List Slot) : Prop where
  inv : SwaInv ps locks nodes' full { swa with evictable := swaEvictable } uuid
  slots : ∀ x, total (slotCount x) nodes' = total (slotCount x) nodes
  live : ∀ x, total (liveCount x) nodes' + (freed.count x : ℕ) = total (liveCount x) nodes
  noTombstoneLeaf : LocksLive locks nodes → NoTombstoneLeaf nodes →
    LocksLive locks nodes' ∧ NoTombstoneLeaf nodes'

theorem trimLoop_spec {ids : List Token} {keepFrom : ℕ} :
    ∀ (fuel : ℕ) (nodes : List RadixTreeNode) (swa : KvSizes) (a : Path) (pos : ℕ)
      (freed : List Slot), SwaInv ps locks nodes full swa uuid →
      ∃ out, (trimLoop ps ids keepFrom fuel nodes swa.evictable a pos freed).2.2 = freed ++ out ∧
        TrimSpec ps locks nodes full swa uuid
          (trimLoop ps ids keepFrom fuel nodes swa.evictable a pos freed).1
          (trimLoop ps ids keepFrom fuel nodes swa.evictable a pos freed).2.1 out := by
  intro fuel
  have stay : ∀ {nodes : List RadixTreeNode} {swa : KvSizes},
      SwaInv ps locks nodes full swa uuid →
      TrimSpec ps locks nodes full swa uuid nodes swa.evictable [] := fun h =>
    ⟨h, fun _ => rfl, fun _ => by simp, fun hl hnl => ⟨hl, hnl⟩⟩
  induction fuel with
  | zero => exact fun nodes swa a pos freed h => ⟨[], by simp [trimLoop], stay h⟩
  | succ fuel ih =>
    intro nodes swa a pos freed h
    unfold trimLoop
    by_cases hlt : pos < keepFrom
    swap
    · rw [if_neg hlt]
      exact ⟨[], by simp, stay h⟩
    rw [if_pos hlt]
    cases hc : childAt ps nodes a (ids.drop pos) with
    | none => exact ⟨[], by simp, stay h⟩
    | some child =>
      obtain ⟨hmem, -, -⟩ := childAt_eq_some hc
      simp only []
      by_cases hpast : keepFrom < pos + child.length
      · rw [if_pos hpast]
        exact ⟨[], by simp, stay h⟩
      rw [if_neg hpast]
      split
      · next hcond =>
        -- a live internal node outside every window
        simp only [Bool.and_eq_true, Bool.not_eq_true', decide_eq_true_eq] at hcond
        obtain ⟨⟨hlive, h0⟩, hleaf⟩ := hcond
        obtain ⟨hinv, hsl, hled, hll, hnt⟩ := tombstone_spec h hmem hlive h0
        obtain ⟨out, heq, hs⟩ :=
          ih _ _ (stop child) (pos + child.length) (freed ++ child.value) hinv
        refine ⟨child.value ++ out, by rw [heq, append_assoc], hs.inv, fun x => ?_,
          fun x => ?_, fun hl hnl => ?_⟩
        · rw [hs.slots x, hsl x]
        · have h₁ := hs.live x
          have h₂ := hled x
          simp only at h₁
          have h₃ : slotCount x child = (child.value.count x : ℕ) := rfl
          rw [count_append]
          push_cast
          omega
        · refine hs.noTombstoneLeaf (hll hl) (hnt hnl fun hleaf' => ?_)
          rw [isLeaf_iff.mpr hleaf'] at hleaf
          exact absurd hleaf (by decide)
      · exact ih nodes swa (stop child) (pos + child.length) freed h

/-- What `trim_head_swa` does. -/
theorem trimHeadSwa_spec (hwin : 0 < c.slidingWindowSize)
    (h : SwaInv c.pageSize locks c.nodes c.full c.swa c.uuid) (ids : List Token) (keepFrom : ℕ)
    {c' : SWARadixCache} {out : List Slot} (hr : (c', out) = c.trimHeadSwa ids keepFrom) :
    SwaInv c.pageSize locks c'.nodes c'.full c'.swa c'.uuid ∧
      (c'.pageSize = c.pageSize ∧ c'.slidingWindowSize = c.slidingWindowSize ∧
        c'.uuid = c.uuid) ∧
      (∀ x, total (slotCount x) c'.nodes = total (slotCount x) c.nodes) ∧
      (∀ x, total (liveCount x) c'.nodes + (out.count x : ℕ) = total (liveCount x) c.nodes) ∧
      (LocksLive locks c.nodes → NoTombstoneLeaf c.nodes →
        LocksLive locks c'.nodes ∧ NoTombstoneLeaf c'.nodes) := by
  unfold trimHeadSwa at hr
  by_cases h0 : keepFrom = 0
  · rw [if_pos h0] at hr
    obtain ⟨rfl, rfl⟩ := Prod.mk.inj hr
    exact ⟨h, ⟨rfl, rfl, rfl⟩, fun _ => rfl, fun _ => by simp, fun hl hnl => ⟨hl, hnl⟩⟩
  rw [if_neg h0] at hr
  obtain ⟨m, hm⟩ := matchPrefix_spec hwin h.wf (ids.take keepFrom)
  obtain ⟨c₁, hc₁⟩ : ∃ c₁, c₁ = (c.matchPrefix (ids.take keepFrom)).1 := ⟨_, rfl⟩
  rw [← hc₁] at hm hr
  obtain ⟨hp, hw, hf, hs, hu⟩ := hm.fields
  have h₁ : SwaInv c₁.pageSize locks c₁.nodes c₁.full c₁.swa c₁.uuid := by
    rw [hp, hf, hs, hu]
    exact h.reshape hm.reshape
  obtain ⟨out', heq, hspec⟩ := trimLoop_spec keepFrom c₁.nodes c₁.swa [] 0 [] h₁
  obtain ⟨hc', hout⟩ := Prod.mk.inj hr
  rw [hc', hout, heq, nil_append]
  refine ⟨hp ▸ hspec.inv, ⟨hp, hw, hu⟩, fun x => ?_, fun x => ?_, fun hl hnl =>
    hspec.noTombstoneLeaf (hl.of_persists (fun L hL => h.isAddress hL)
      (.reshape h.wf hm.reshape) h₁.wf) (NoTombstoneLeaf.reshape hnl h.wf hm.reshape)⟩
  · rw [hspec.slots x, hm.reshape.total_eq h.wf (splits_slotCount x)]
  · rw [hspec.live x, hm.reshape.total_eq h.wf (splits_liveCount x)]

end SWARadixCache

end FreeToken
