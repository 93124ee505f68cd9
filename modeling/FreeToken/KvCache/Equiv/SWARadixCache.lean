import FreeToken.KvCache.Equiv.SWAEvict
import FreeToken.KvCache.Equiv.RadixCache

/-!
# Correctness of `SWARadixCache`

* `SwaSys`, `SwaStep`, `SwaRun`: a cache with its outstanding locks, under any sequence of calls,
  and the slots that each call moves.
* `swaRadixCache_conserves_slots`: **slots and window copies are conserved.**
* `swaRadixCache_match_sound_maximal`: **a windowed match is sound and maximal.**
* `swaRadixCache_lock_pairing`: **reference counts are numbers of outstanding locks.**
* `SwaSys.Inv.promise`: an eviction delivers what the counters promise.
* `SwaRun.noTombstoneLeaf`: no leaf is a tombstone.
-/

namespace FreeToken

open List TrieEdge RadixTreeNode SWARadixCache

/-! ### Runs of the cache -/

structure SwaSys where
  cache : SWARadixCache
  locks : List SwaLock := []

structure SwaSys.Inv (s : SwaSys) : Prop where
  window : 0 < s.cache.slidingWindowSize
  inv : SwaInv s.cache.pageSize s.locks s.cache.nodes s.cache.full s.cache.swa s.cache.uuid

def SwaSys.slots (s : SwaSys) : List Slot := valuesOf s.cache.nodes

/-- The slots in the tree whose window copy is live. -/
def SwaSys.liveSlots (s : SwaSys) : List Slot :=
  valuesOf (s.cache.nodes.filter fun n => !n.swaTombstone)

/-- The slots a call moves: those handed to the tree, those an insertion gives back and those an
eviction gives back; those whose window copy becomes live in the tree, and those whose window copy
is reported for release. -/
structure SwaFlow where
  handed : List Slot := []
  freed : List Slot := []
  evicted : List Slot := []
  made : List Slot := []
  released : List Slot := []

/-- A node that a lock may be taken on when the handle comes from `match_prefix`: the root, or a
live node. -/
def LiveNode (nodes : List RadixTreeNode) (a : Path) : Prop :=
  a = [] ∨ ∃ n ∈ nodes, stop n = a ∧ n.swaTombstone = false

section Step

variable (lockable : List RadixTreeNode → Path → Prop)

/-- The calls of a client that locks `lockable` nodes, gives each lock back once with the uuid it
was given, and hands over slots that are not in the tree.  The slots it keeps are those below the
last boundary at or before `updateKvAfterLen`. -/
inductive SwaStep : SwaSys → SwaFlow → SwaSys → Prop
  | matchPrefix {c : SWARadixCache} {locks : List SwaLock} (ids : List Token) :
      SwaStep ⟨c, locks⟩ {} ⟨(c.matchPrefix ids).1, locks⟩
  | insert {c c' : SWARadixCache} {locks : List SwaLock} (ids : List Token) (kv : List Slot)
      (swaEvictedSeqlen updateKvAfterLen : ℕ) {b m : ℕ} {handed freed : List Slot}
      (hlen : kv.length = ids.length) (hd : c.pageSize ∣ swaEvictedSeqlen)
      (hc : (c', m, freed) = c.insert ids kv swaEvictedSeqlen updateKvAfterLen)
      (hb : KeepsTo c.nodes (ids.take (alignDown ids.length c.pageSize)) updateKvAfterLen m b)
      (hh : handed = (kv.take (alignDown ids.length c.pageSize)).drop b) (hnd : handed.Nodup)
      (hfresh : ∀ x ∈ handed, x ∉ valuesOf c.nodes) :
      SwaStep ⟨c, locks⟩
        { handed := handed, freed := freed
          made := handed.filter fun x => x ∈ (SwaSys.mk c' locks).liveSlots } ⟨c', locks⟩
  | incLock {c : SWARadixCache} {locks : List SwaLock} (node : Path)
      (ha : IsAddress c.nodes node) (hl : lockable c.nodes node) :
      SwaStep ⟨c, locks⟩ {}
        ⟨(c.incLock node).1, ⟨node, (c.incLock node).2,
          windowStart c.slidingWindowSize (ancestors c.nodes node) 0⟩ :: locks⟩
  | decLock {c : SWARadixCache} {locks : List SwaLock} (L : SwaLock) (hL : L ∈ locks) :
      SwaStep ⟨c, locks⟩ {} ⟨c.decLock L.node L.swaUuid false, locks.erase L⟩
  | evictFull {c c' : SWARadixCache} {locks : List SwaLock} (H : Heapq timestamp) (numTokens : ℕ)
      {r : SWAEvictResult} (hc : (c', r) = c.evictFull H numTokens) :
      SwaStep ⟨c, locks⟩ { evicted := r.kvIndices, released := r.swaIndices } ⟨c', locks⟩
  | evictSwa {c c' : SWARadixCache} {locks : List SwaLock} (H : Heapq timestamp) (numTokens : ℕ)
      {r : SWAEvictResult} (hc : (c', r) = c.evictSwa H numTokens) :
      SwaStep ⟨c, locks⟩ { evicted := r.kvIndices, released := r.swaIndices } ⟨c', locks⟩
  | trimHeadSwa {c c' : SWARadixCache} {locks : List SwaLock} (ids : List Token) (keepFrom : ℕ)
      {out : List Slot} (hc : (c', out) = c.trimHeadSwa ids keepFrom) :
      SwaStep ⟨c, locks⟩ { released := out } ⟨c', locks⟩

/-- The runs from an empty cache, with the slots each call moved, oldest first. -/
inductive SwaRun (ps window : ℕ) : List SwaFlow → SwaSys → Prop
  | start : SwaRun ps window [] ⟨{ pageSize := ps, slidingWindowSize := window }, []⟩
  | step {flows : List SwaFlow} {s s' : SwaSys} {f : SwaFlow} (h : SwaRun ps window flows s)
      (hs : SwaStep lockable s f s') : SwaRun ps window (flows ++ [f]) s'

end Step

variable {lockable : List RadixTreeNode → Path → Prop} {ps window : ℕ} {flows : List SwaFlow}
  {s s' : SwaSys} {f : SwaFlow}

theorem SwaSys.count_slots (s : SwaSys) (x : Slot) :
    (s.slots.count x : ℤ) = total (slotCount x) s.cache.nodes :=
  count_valuesOf _ _

theorem count_live (nodes : List RadixTreeNode) (x : Slot) :
    ((valuesOf (nodes.filter fun n => !n.swaTombstone)).count x : ℤ) =
      total (liveCount x) nodes := by
  induction nodes with
  | nil => rfl
  | cons n nodes ih =>
    rw [total_cons, ← ih, liveCount, slotCount]
    cases ht : n.swaTombstone <;> simp [ht]

theorem SwaSys.count_liveSlots (s : SwaSys) (x : Slot) :
    (s.liveSlots.count x : ℤ) = total (liveCount x) s.cache.nodes :=
  count_live _ _

/-! ### What a step does -/

/-- What every step keeps, and how it accounts for the slots it moves. -/
structure StepSpec (s : SwaSys) (f : SwaFlow) (s' : SwaSys) : Prop where
  inv : s'.Inv
  pageSize : s'.cache.pageSize = s.cache.pageSize
  window : s'.cache.slidingWindowSize = s.cache.slidingWindowSize
  fresh : f.handed.Nodup ∧ ∀ x ∈ f.handed, x ∉ s.slots
  slots : ∀ x, (s'.slots.count x : ℤ) + f.freed.count x + f.evicted.count x =
    s.slots.count x + f.handed.count x
  live : ∀ x, (s'.liveSlots.count x : ℤ) + f.released.count x = s.liveSlots.count x + f.made.count x

/-- A step that hands over no slots: what it moved is what its two balances say. -/
theorem StepSpec.of_evicted {s s' : SwaSys} {evicted released : List Slot} (h : s'.Inv)
    (hp : s'.cache.pageSize = s.cache.pageSize)
    (hw : s'.cache.slidingWindowSize = s.cache.slidingWindowSize)
    (hs : ∀ x, total (slotCount x) s'.cache.nodes + (evicted.count x : ℕ) =
      total (slotCount x) s.cache.nodes)
    (hl : ∀ x, total (liveCount x) s'.cache.nodes + (released.count x : ℕ) =
      total (liveCount x) s.cache.nodes) :
    StepSpec s { evicted := evicted, released := released } s' := by
  refine ⟨h, hp, hw, by simp, fun x => ?_, fun x => ?_⟩
  · simp [SwaSys.count_slots, hs x]
  · simp [SwaSys.count_liveSlots, hl x]

theorem StepSpec.of_total_eq {s s' : SwaSys} (h : s'.Inv)
    (hp : s'.cache.pageSize = s.cache.pageSize)
    (hw : s'.cache.slidingWindowSize = s.cache.slidingWindowSize)
    (hs : ∀ x, total (slotCount x) s'.cache.nodes = total (slotCount x) s.cache.nodes)
    (hl : ∀ x, total (liveCount x) s'.cache.nodes = total (liveCount x) s.cache.nodes) :
    StepSpec s {} s' :=
  .of_evicted h hp hw (by simpa using hs) (by simpa using hl)

theorem total_slotCount_of_sameCore {nodes nodes' : List RadixTreeNode} (h : SameCore nodes nodes')
    (x : Slot) : total (slotCount x) nodes' = total (slotCount x) nodes ∧
      total (liveCount x) nodes' = total (liveCount x) nodes :=
  ⟨h.total_eq fun _ => rfl, h.total_eq fun _ => rfl⟩

/-- Of slots handed over that were not live before, those that are live now are those made live. -/
theorem count_adopted {handed made old live : List Slot} {x : Slot} (hnd : handed.Nodup)
    (hsub : made.Sublist handed) (hold : ∀ y ∈ handed, y ∉ old)
    (hlive : (live.count x : ℤ) = old.count x + made.count x) :
    (handed.filter fun y => y ∈ live).count x = made.count x := by
  have hle : made.count x ≤ handed.count x := hsub.count_le x
  have hone : handed.count x ≤ 1 := nodup_iff_count_le_one.mp hnd x
  by_cases hx : x ∈ handed
  · have hzero : old.count x = 0 := count_eq_zero.mpr (hold x hx)
    have hpos := count_pos_iff.mpr hx
    by_cases hxl : x ∈ live
    · have hlpos := count_pos_iff.mpr hxl
      rw [count_filter (by simpa using hxl)]
      omega
    · have hlzero := count_eq_zero.mpr hxl
      rw [count_eq_zero.mpr fun hmem => hxl (by simpa using (mem_filter.mp hmem).2)]
      omega
  · have hzero := count_eq_zero.mpr hx
    rw [count_eq_zero.mpr fun hmem => hx (mem_filter.mp hmem).1]
    omega

/-- **Every step keeps the invariant and accounts for the slots it moves.** -/
theorem SwaStep.spec (hs : SwaStep lockable s f s') (h : s.Inv) : StepSpec s f s' := by
  obtain ⟨hwin, hinv⟩ := h
  cases hs with
  | @matchPrefix c locks ids =>
    dsimp only at hwin hinv
    obtain ⟨m, hm⟩ := SWARadixCache.matchPrefix_spec hwin hinv.wf ids
    obtain ⟨hp, hw, hf, hsw, hu⟩ := hm.fields
    refine .of_total_eq ⟨by rw [hw]; exact hwin, ?_⟩ hp hw
      (fun x => hm.reshape.total_eq hinv.wf (splits_slotCount x))
      (fun x => hm.reshape.total_eq hinv.wf (splits_liveCount x))
    simp only [hp, hf, hsw, hu]
    exact hinv.reshape hm.reshape
  | @insert c c' locks ids kv e p b m handed freed hlen hd hc hb hh hnd hfresh =>
    dsimp only at hwin hinv
    obtain ⟨m', -, hm, hins⟩ := SWARadixCache.insert_spec hinv hlen (p := p) hd
    rw [← hc] at hm hins
    dsimp only at hm hins
    subst hm
    obtain ⟨made, hins⟩ := hins b hb
    obtain ⟨hp, hw, hu⟩ := hins.fields
    refine ⟨⟨by rw [hw]; exact hwin, hp ▸ hins.inv⟩, hp, hw, ⟨hnd, hfresh⟩, fun x => ?_,
      fun x => ?_⟩
    · have := hins.slots x
      rw [← hh] at this
      simpa [SwaSys.count_slots] using this
    · -- the slots adopted live are the handed ones that are live now
      have hlive := hins.live x
      rw [← count_live, ← count_live] at hlive
      have hold : ∀ y ∈ handed, y ∉ valuesOf (c.nodes.filter fun n => !n.swaTombstone) := by
        intro y hy hyl
        obtain ⟨n, hn, hyn⟩ := mem_flatMap.mp hyl
        exact hfresh y hy (mem_flatMap.mpr ⟨n, (mem_filter.mp hn).1, hyn⟩)
      have hcount : (handed.filter fun y => y ∈ (SwaSys.mk c' locks).liveSlots).count x =
          made.count x :=
        count_adopted hnd (hh ▸ hins.sub) hold hlive
      simp only [SwaSys.liveSlots] at hcount ⊢
      rw [hcount, hlive]
      simp
  | @incLock c locks node ha hl =>
    dsimp only at hwin hinv
    obtain ⟨hinc, hsame⟩ := hinv.incLock hwin ha rfl
    exact .of_total_eq ⟨hwin, hinc⟩ rfl rfl (fun x => (total_slotCount_of_sameCore hsame x).1)
      (fun x => (total_slotCount_of_sameCore hsame x).2)
  | @decLock c locks L hL =>
    dsimp only at hwin hinv
    obtain ⟨hdec, hsame⟩ := hinv.decLock hL rfl
    exact .of_total_eq ⟨hwin, hdec⟩ rfl rfl (fun x => (total_slotCount_of_sameCore hsame x).1)
      (fun x => (total_slotCount_of_sameCore hsame x).2)
  | @evictFull c c' locks H k r hc =>
    dsimp only at hwin hinv
    obtain ⟨rs, hrem, hkv, -, -, hinv', ⟨hp, hw, hu⟩, hlive, -⟩ :=
      SWARadixCache.evictFull_spec hinv H k hc
    refine .of_evicted ⟨by rw [hw]; exact hwin, hp ▸ hinv'⟩ hp hw (fun x => ?_) hlive
    rw [hkv, count_valuesOf rs x]
    exact eq_sub_iff_add_eq.mp (hrem.total_eq hinv.wf (slotCount x))
  | @evictSwa c c' locks H k r hc =>
    dsimp only at hwin hinv
    obtain ⟨hinv', ⟨hp, hw, hu⟩, hsl, hlive, -⟩ := SWARadixCache.evictSwa_spec hinv H k hc
    exact .of_evicted ⟨by rw [hw]; exact hwin, hp ▸ hinv'⟩ hp hw hsl hlive
  | @trimHeadSwa c c' locks ids keepFrom out hc =>
    dsimp only at hwin hinv
    obtain ⟨hinv', ⟨hp, hw, hu⟩, hsl, hlive, -⟩ :=
      SWARadixCache.trimHeadSwa_spec hwin hinv ids keepFrom hc
    exact .of_evicted ⟨by rw [hw]; exact hwin, hp ▸ hinv'⟩ hp hw (by simpa using hsl) hlive

/-! ### What a run does -/

/-- The slots a run has moved, up to order: what was handed to the tree is in it or was given
back, and what became live is live or was released. -/
structure SwaLedger (flows : List SwaFlow) (s : SwaSys) : Prop where
  slots : (flows.flatMap SwaFlow.handed).Perm
    (s.slots ++ flows.flatMap SwaFlow.freed ++ flows.flatMap SwaFlow.evicted)
  nodup : s.slots.Nodup
  live : (flows.flatMap SwaFlow.made).Perm (s.liveSlots ++ flows.flatMap SwaFlow.released)

theorem StepSpec.ledger (hs : StepSpec s f s') (h : SwaLedger flows s) :
    SwaLedger (flows ++ [f]) s' := by
  refine ⟨?_, ?_, ?_⟩
  · rw [perm_iff_count]
    intro x
    have h₁ := hs.slots x
    have h₂ := perm_iff_count.mp h.slots x
    simp only [flatMap_append, flatMap_singleton, count_append] at h₂ ⊢
    omega
  · rw [nodup_iff_count_le_one]
    intro x
    have h₁ := hs.slots x
    have h₂ := nodup_iff_count_le_one.mp h.nodup x
    have h₃ := nodup_iff_count_le_one.mp hs.fresh.1 x
    have h₄ : f.handed.count x = 0 ∨ s.slots.count x = 0 := by
      by_cases hx : x ∈ f.handed
      · exact Or.inr (count_eq_zero.mpr (hs.fresh.2 x hx))
      · exact Or.inl (count_eq_zero.mpr hx)
    omega
  · rw [perm_iff_count]
    intro x
    have h₁ := hs.live x
    have h₂ := perm_iff_count.mp h.live x
    simp only [flatMap_append, flatMap_singleton, count_append] at h₂ ⊢
    omega

theorem SwaRun.spec (hps : 0 < ps) (hwin : 0 < window) (h : SwaRun lockable ps window flows s) :
    s.Inv ∧ s.cache.pageSize = ps ∧ s.cache.slidingWindowSize = window ∧ SwaLedger flows s := by
  induction h with
  | start =>
    exact ⟨⟨hwin, swaInv_nil hps⟩, rfl, rfl, List.Perm.refl _, nodup_nil, List.Perm.refl _⟩
  | step _ hs ih =>
    obtain ⟨hinv, hp, hw, hled⟩ := ih
    have hspec := hs.spec hinv
    exact ⟨hspec.inv, hspec.pageSize.trans hp, hspec.window.trans hw, hspec.ledger hled⟩

/-- **Slots and window copies are conserved.**  At any time of a run every slot handed to an
insertion is in one node of the tree, or was given back by an insertion or an eviction; every slot
whose window copy was made live is live in the tree or was released; no slot is twice in the tree;
and the size counters are the sums over the nodes. -/
theorem swaRadixCache_conserves_slots (hps : 0 < ps) (hwin : 0 < window)
    (h : SwaRun lockable ps window flows s) :
    (flows.flatMap SwaFlow.handed).Perm
        (s.slots ++ flows.flatMap SwaFlow.freed ++ flows.flatMap SwaFlow.evicted) ∧
      s.slots.Nodup ∧
      (flows.flatMap SwaFlow.made).Perm (s.liveSlots ++ flows.flatMap SwaFlow.released) ∧
      s.cache.full.evictable = total evictableTokens s.cache.nodes ∧
      s.cache.full.protectedSize = total protectedTokens s.cache.nodes ∧
      s.cache.swa.evictable = total swaEvictableTokens s.cache.nodes ∧
      s.cache.swa.protectedSize = total swaProtectedTokens s.cache.nodes := by
  obtain ⟨⟨-, hinv⟩, -, -, hled⟩ := h.spec hps hwin
  exact ⟨hled.slots, hled.nodup, hled.live, hinv.kv.evictable, hinv.kv.protectedSize,
    hinv.evictable, hinv.protectedSize⟩

theorem keepsTo_zero (nodes : List RadixTreeNode) (ids : List Token) (m : ℕ) :
    KeepsTo nodes ids 0 m 0 :=
  ⟨le_rfl, Nat.zero_le _, Or.inr (isAddress_nil _), fun _ _ hk _ => hk⟩

/-- A prompt whose head is out of the window, and the same prompt again. -/
theorem swaRadixCache_conserves_slots_run :
    ∃ (flows : List SwaFlow) (s : SwaSys), s.slots = [10, 21, 12] ∧
      (flows.flatMap SwaFlow.handed).Perm
      (s.slots ++ flows.flatMap SwaFlow.freed ++ flows.flatMap SwaFlow.evicted) := by
  have hrun : SwaRun (fun _ _ => True) 1 2
      [{ handed := [10, 11, 12], made := [12] },
        { handed := [20, 21, 22], freed := [11, 20, 22], made := [21] }]
      ⟨(((SWARadixCache.mk 1 2 [] {} {} 0 0).insert [1, 2, 3] [10, 11, 12] 2 0).1.insert
        [1, 2, 3] [20, 21, 22] 1 0).1, []⟩ :=
    .step (.step .start (.insert [1, 2, 3] [10, 11, 12] 2 0 rfl (one_dvd _) rfl
      (keepsTo_zero _ _ _) rfl (by decide) (by decide)))
      (.insert [1, 2, 3] [20, 21, 22] 1 0 rfl (one_dvd _) rfl (keepsTo_zero _ _ _) rfl (by decide)
        (by decide))
  exact ⟨_, _, by decide, (swaRadixCache_conserves_slots (by decide) (by decide) hrun).1⟩

/-! ### Windowed matches -/

/-- **A windowed match is sound and maximal.**  In the tree after the walk, `m` being the full token
match: every position of the trailing window of the match lies in a live node of its path; among
the boundaries up to `m`, the root included, the match ends at the deepest one whose trailing live
run holds the window or whose path has no tombstone; and it returns the slots of the path in
order. -/
theorem swaRadixCache_match_sound_maximal (hps : 0 < ps) (hwin : 0 < window)
    (h : SwaRun lockable ps window flows s) (ids : List Token) {c' : SWARadixCache} {r : SWAMatch}
    (hr : (c', r) = s.cache.matchPrefix ids) :
    ∃ m, IsLongest ps (Resident s.cache.nodes) ids m ∧ r.cachedLen ≤ m ∧
      IsAddress c'.nodes (ids.take m) ∧ IsAddress c'.nodes (ids.take r.cachedLen) ∧
      (∀ i < r.cachedLen, r.cachedLen ≤ i + window →
        ∃ n ∈ c'.nodes, stop n <+: ids.take r.cachedLen ∧
        n.start.length ≤ i ∧ i < (stop n).length ∧ n.swaTombstone = false) ∧
      (window ≤ liveRun (ancestors c'.nodes (ids.take r.cachedLen)) ∨
        ∀ n ∈ ancestors c'.nodes (ids.take r.cachedLen), n.swaTombstone = false) ∧
      (∀ k ≤ m, IsAddress c'.nodes (ids.take k) →
        (window ≤ liveRun (ancestors c'.nodes (ids.take k)) ∨
          ∀ n ∈ ancestors c'.nodes (ids.take k), n.swaTombstone = false) → k ≤ r.cachedLen) ∧
      r.kvIndices = getMatchedIndices c'.nodes (ids.take r.cachedLen) ∧
      r.kvIndices.length = r.cachedLen ∧ r.node = ids.take r.cachedLen := by
  obtain ⟨⟨hw, hinv⟩, hp, hwd, -⟩ := h.spec hps hwin
  obtain ⟨m, hm⟩ := SWARadixCache.matchPrefix_spec hw hinv.wf ids
  rw [← hr] at hm
  have hlong := hm.longest
  have haddr := hm.nodeAddress
  have hre := hm.reusable
  have hmax := hm.max
  have hkv := hm.kvIndices
  rw [hp] at hlong
  rw [hwd] at hre hmax
  rw [hm.node_eq] at haddr hre hkv
  have hwf := hm.reshape.wf hinv.wf
  have hlen : (ids.take r.cachedLen).length = r.cachedLen := by
    rw [length_take]
    exact min_eq_left (hm.le.trans hlong.le)
  refine ⟨m, hlong, hm.le, hm.address, haddr, fun i hi hge => ?_, hre, hmax, hkv, ?_, hm.node_eq⟩
  · exact hre.live_of_window hwf haddr (by rwa [hlen]) (by rwa [hlen])
  · rw [hkv, length_getMatchedIndices hwf haddr, hlen]

/-- A match past a tombstoned head. -/
theorem swaRadixCache_match_sound_maximal_run :
    (((SWARadixCache.mk 1 2 [] {} {} 0 0).insert [1, 2, 3, 4] [10, 11, 12, 13] 2 0).1.matchPrefix
        [1, 2, 3, 4, 5]).2.cachedLen = 4 ∧
      ∀ m, IsLongest 1 (Resident
        ((SWARadixCache.mk 1 2 [] {} {} 0 0).insert [1, 2, 3, 4] [10, 11, 12, 13] 2 0).1.nodes)
        [1, 2, 3, 4, 5] m → 4 ≤ m := by
  have hrun : SwaRun (fun _ _ => True) 1 2 _ ⟨((SWARadixCache.mk 1 2 [] {} {} 0 0).insert
      [1, 2, 3, 4] [10, 11, 12, 13] 2 0).1, []⟩ :=
    .step .start (.insert [1, 2, 3, 4] [10, 11, 12, 13] 2 0 rfl (one_dvd _) rfl
      (keepsTo_zero _ _ _) rfl (by decide) (by decide))
  obtain ⟨m, hlong, hle, -⟩ := swaRadixCache_match_sound_maximal (by decide) (by decide) hrun
    [1, 2, 3, 4, 5] rfl
  exact ⟨by decide, fun m' hm' => hm'.unique hlong ▸ hle⟩

/-! ### Lock pairing -/

/-- **Lock pairing survives tree surgery.**  At any time of a run the reference count of a node is
the number of outstanding locks whose path contains it, its window reference count is the number of
those whose window part covers it, and no counter is negative; when no lock is outstanding, every
counter is `0` and nothing is protected. -/
theorem swaRadixCache_lock_pairing (hps : 0 < ps) (hwin : 0 < window)
    (h : SwaRun lockable ps window flows s) :
    (∀ n ∈ s.cache.nodes, n.refCount = lockCount (s.locks.map SwaLock.node) (stop n) ∧
      n.swaRefCount = swaLockCount s.locks n ∧ 0 ≤ n.swaRefCount ∧ n.swaRefCount ≤ n.refCount ∧
      (n.swaTombstone = true → n.swaRefCount = 0)) ∧
    (0 ≤ s.cache.full.evictable ∧ 0 ≤ s.cache.full.protectedSize ∧ 0 ≤ s.cache.swa.evictable ∧
      0 ≤ s.cache.swa.protectedSize) ∧
    (s.locks = [] → (∀ n ∈ s.cache.nodes, n.refCount = 0 ∧ n.swaRefCount = 0) ∧
      s.cache.full.protectedSize = 0 ∧ s.cache.swa.protectedSize = 0) := by
  obtain ⟨⟨-, hinv⟩, -, -, -⟩ := h.spec hps hwin
  have hzero : s.locks = [] → ∀ n ∈ s.cache.nodes, n.refCount = 0 ∧ n.swaRefCount = 0 := by
    intro hl n hn
    have hr := hinv.kv.ref n hn
    have hsr := hinv.swaRef n hn
    rw [hl] at hr hsr
    exact ⟨hr, hsr⟩
  refine ⟨fun n hn => ⟨hinv.kv.ref n hn, hinv.swaRef n hn, hinv.swaRef_nonneg hn, hinv.swaRef_le hn,
    hinv.swaRef_of_tombstone hn⟩, ⟨?_, ?_, ?_, ?_⟩, fun hl => ⟨hzero hl, ?_, ?_⟩⟩
  · rw [hinv.kv.evictable]
    exact total_nonneg fun n _ => by unfold evictableTokens; split <;> omega
  · rw [hinv.kv.protectedSize]
    exact total_nonneg fun n _ => by unfold protectedTokens; split <;> omega
  · rw [hinv.evictable]
    exact total_nonneg fun n _ => by unfold swaEvictableTokens; split <;> omega
  · rw [hinv.protectedSize]
    exact total_nonneg fun n _ => by unfold swaProtectedTokens; split <;> omega
  · rw [hinv.kv.protectedSize]
    exact total_eq_zero fun n hn => by simp [protectedTokens, (hzero hl n hn).1]
  · rw [hinv.protectedSize]
    exact total_eq_zero fun n hn => by simp [swaProtectedTokens, (hzero hl n hn).2]

/-- A lock on a node that a later match splits, and its release. -/
theorem swaRadixCache_lock_pairing_run :
    ∃ s s' : SwaSys, s.cache.nodes.map (fun n => (stop n, n.refCount, n.swaRefCount)) =
        [([1, 2], 1, 1), ([1, 2, 3, 4], 1, 1)] ∧
      (∀ n ∈ s.cache.nodes, n.refCount = lockCount (s.locks.map SwaLock.node) (stop n)) ∧
      ∀ n ∈ s'.cache.nodes, n.refCount = 0 ∧ n.swaRefCount = 0 := by
  let c₁ := ((SWARadixCache.mk 1 3 [] {} {} 0 0).insert [1, 2, 3, 4] [10, 11, 12, 13] 0 0).1
  let c₂ := ((c₁.incLock [1, 2, 3, 4]).1.matchPrefix [1, 2, 9]).1
  have hrun :
    SwaRun (fun _ _ => True) 1 3 [{ handed := [10, 11, 12, 13], made := [10, 11, 12, 13] },
      {}, {}] ⟨c₂, [⟨[1, 2, 3, 4], some 1, 0⟩]⟩ :=
    .step (.step (.step .start (.insert [1, 2, 3, 4] [10, 11, 12, 13] 0 0 rfl (one_dvd _) rfl
      (keepsTo_zero _ _ _) rfl (by decide) (by decide)))
      (.incLock [1, 2, 3, 4] (Or.inr ⟨_, mem_singleton_self _, rfl⟩) trivial))
      (.matchPrefix [1, 2, 9])
  have hend := hrun.step (.decLock ⟨[1, 2, 3, 4], some 1, 0⟩ (mem_singleton_self _))
  exact ⟨_, _, by decide,
    fun n hn => ((swaRadixCache_lock_pairing (by decide) (by decide) hrun).1 n hn).1,
    ((swaRadixCache_lock_pairing (by decide) (by decide) hend).2.2 (by decide)).1⟩

/-! ### Evictions and tombstoned leaves -/

theorem SwaSys.Inv.promise (h : s.Inv) :
    EvictionPromise isTombstone (s.locks.map SwaLock.node) s.cache.nodes s.cache.full
      fun H size =>
        some ((s.cache.evictFull H size).1.nodes, (s.cache.evictFull H size).2.kvIndices)
    where
  evictable := h.inv.kv.evictable
  protectedSize := h.inv.kv.protectedSize
  closed _ hn _ hm h0 hpre := h.inv.kv.ref_zero_of_prefix hn hm h0 hpre
  delivers H size hsz := by
    obtain ⟨rs, hrem, hkv, hlru, hend, hinv', -⟩ :=
      SWARadixCache.evictFull_spec h.inv H size Prod.mk.eta
    obtain ⟨hun, hmem, hanc, hlen⟩ := h.inv.kv.promise_of_removes hrem
    refine ⟨_, _, rs, rfl, ?_, hkv, hkv ▸ hlru, hun, hmem, hanc⟩
    rw [hkv, hlen]
    exact hrem.delivered h.inv.kv hsz hend

theorem LocksLive.of_sameCore {nodes nodes' : List RadixTreeNode} {locks : List SwaLock}
    (h : LocksLive locks nodes) (hs : SameCore nodes nodes') : LocksLive locks nodes' := by
  intro L hL m hm hmL
  obtain ⟨k, hk, hkm⟩ := hs.exists_mem hm
  have ht : k.swaTombstone = m.swaTombstone := by
    have := congrArg RadixTreeNode.swaTombstone hkm
    exact this
  rw [← ht]
  exact h L hL k hk ((stop_of_core hkm).trans hmL)

theorem liveNode_matchPrefix (h : s.Inv) (ids : List Token) :
    IsAddress (s.cache.matchPrefix ids).1.nodes (s.cache.matchPrefix ids).2.node ∧
      LiveNode (s.cache.matchPrefix ids).1.nodes (s.cache.matchPrefix ids).2.node := by
  obtain ⟨m, hm⟩ := SWARadixCache.matchPrefix_spec h.window h.inv.wf ids
  refine ⟨hm.nodeAddress, ?_⟩
  rcases hm.nodeAddress with h0 | ⟨n, hn, hna⟩
  · exact Or.inl h0
  · exact Or.inr ⟨n, hn, hna, hm.reusable.live h.window (hm.reshape.wf h.inv.wf) hn hna⟩

theorem SwaStep.noTombstoneLeaf (hs : SwaStep LiveNode s f s') (h : s.Inv)
    (hlive : LocksLive s.locks s.cache.nodes) (hno : NoTombstoneLeaf s.cache.nodes) :
    LocksLive s'.locks s'.cache.nodes ∧ NoTombstoneLeaf s'.cache.nodes := by
  have h' := (hs.spec h).inv
  obtain ⟨hwin, hinv⟩ := h
  have hwf' := h'.inv.wf
  cases hs with
  | @matchPrefix c locks ids =>
    obtain ⟨m, hm⟩ := SWARadixCache.matchPrefix_spec hwin hinv.wf ids
    exact ⟨hlive.of_persists (fun L hL => hinv.isAddress hL) (.reshape hinv.wf hm.reshape) hwf',
      NoTombstoneLeaf.reshape hno hinv.wf hm.reshape⟩
  | @insert c c' locks ids kv e p b m handed freed hlen hd hc hb hh hnd hfresh =>
    obtain ⟨m', -, hm, hins⟩ := SWARadixCache.insert_spec hinv hlen (p := p) hd
    dsimp only at hm hins
    rw [← hc] at hm hins
    dsimp only at hm hins
    subst hm
    obtain ⟨made, hins⟩ := hins b hb
    exact ⟨hlive.of_persists (fun L hL => hinv.isAddress hL) hins.livePersists hwf',
      hins.noTombstoneLeaf hno⟩
  | @incLock c locks node ha hl =>
    obtain ⟨-, hsame⟩ := hinv.incLock hwin ha rfl
    refine ⟨fun L hL m hm hmL => ?_, LeavesAlive.of_sameCore hno (fun _ => rfl) hsame⟩
    rcases mem_cons.mp hL with rfl | hL
    · obtain ⟨k, hk, hkm⟩ := hsame.exists_mem hm
      have ht : k.swaTombstone = m.swaTombstone := by
        have := congrArg RadixTreeNode.swaTombstone hkm
        exact this
      have hka : stop k = node := (stop_of_core hkm).trans hmL
      rcases hl with h0 | ⟨j, hj, hja, hjl⟩
      -- the new lock ends at a node that was matched, and that is alive
      · exact absurd (hka.trans h0) (hinv.wf.trie.stop_ne_nil hk)
      · rwa [← ht, hinv.wf.trie.stop_inj hk hj (hka.trans hja.symm)]
    · exact hlive.of_sameCore hsame L hL m hm hmL
  | @decLock c locks L hL =>
    obtain ⟨-, hsame⟩ := hinv.decLock hL rfl
    exact ⟨fun K hK => hlive.of_sameCore hsame K (mem_of_mem_erase hK),
      LeavesAlive.of_sameCore hno (fun _ => rfl) hsame⟩
  | @evictFull c c' locks H k r hc =>
    obtain ⟨rs, -, -, -, -, -, -, -, hkeep⟩ := SWARadixCache.evictFull_spec hinv H k hc
    exact hkeep hlive hno
  | @evictSwa c c' locks H k r hc =>
    obtain ⟨-, -, -, -, -, -, hkeep⟩ := SWARadixCache.evictSwa_spec hinv H k hc
    exact hkeep hlive hno
  | @trimHeadSwa c c' locks ids keepFrom out hc =>
    obtain ⟨-, -, -, -, hkeep⟩ := SWARadixCache.trimHeadSwa_spec hwin hinv ids keepFrom hc
    exact hkeep hlive hno

theorem SwaRun.noTombstoneLeaf (hps : 0 < ps) (hwin : 0 < window)
    (h : SwaRun LiveNode ps window flows s) :
    LocksLive s.locks s.cache.nodes ∧ NoTombstoneLeaf s.cache.nodes := by
  induction h with
  | start => exact ⟨by simp [LocksLive], LeavesAlive.nil⟩
  | step hrun hs ih => exact hs.noTombstoneLeaf (hrun.spec hps hwin).1 ih.1 ih.2

end FreeToken
