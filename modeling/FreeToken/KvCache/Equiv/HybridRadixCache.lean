import FreeToken.KvCache.HybridRadixCache
import FreeToken.KvCache.Equiv.RadixCache

/-!
# Correctness of `HybridRadixCache`

* `MambaInv`: the snapshot currency of a tree with a given list of locked nodes.
* `HybridRadixCache.matchPrefix_spec`: a match returns the deepest node with a live snapshot.
* `HybridRadixCache.insert_spec`, `HybridRadixCache.evictFull_spec`,
  `HybridRadixCache.evictMamba_spec`: what the operations do to the two currencies.
* `HybridRun.spec`: the invariant of every run.
-/

namespace FreeToken

open TrieEdge RadixTreeNode HybridRadixCache

variable {ps : ℕ} {locks locks' : List Path} {nodes nodes' : List RadixTreeNode}
  {n n' : RadixTreeNode} {full mamba : KvSizes}

/-! ### The snapshot currency -/

/-- `1` for a snapshot that may be evicted. -/
def mambaEvictable (n : RadixTreeNode) : ℤ :=
  if n.mambaValue.isSome ∧ n.mambaRefCount = 0 then 1 else 0

/-- `1` for a snapshot that some lock protects. -/
def mambaProtected (n : RadixTreeNode) : ℤ :=
  if n.mambaValue.isSome ∧ n.mambaRefCount ≠ 0 then 1 else 0

/-- The number of times a state slot is a node's snapshot. -/
def snapshotCount (v : ℕ) (n : RadixTreeNode) : ℤ := if n.mambaValue = some v then 1 else 0

theorem splits_snapshotCount (v : ℕ) : Splits ps (snapshotCount v) where
  stamp _ _ := rfl
  split n pos _ := by
    have h₁ : (n.splitAt pos).1.mambaValue = none := rfl
    have h₂ : (n.splitAt pos).2.mambaValue = n.mambaValue := rfl
    simp [snapshotCount, h₁, h₂]

/-- The snapshot currency of a tree whose outstanding locks are on the nodes `locks`. -/
structure MambaInv (locks : List Path) (nodes : List RadixTreeNode) (mamba : KvSizes) : Prop where
  ref : ∀ n ∈ nodes, n.mambaRefCount = (locks.count (stop n) : ℕ)
  snapshot : ∀ n ∈ nodes, stop n ∈ locks → n.mambaValue.isSome
  evictable : mamba.evictable = total mambaEvictable nodes
  protectedSize : mamba.protectedSize = total mambaProtected nodes

theorem mambaInv_nil : MambaInv [] [] {} := ⟨by simp, by simp, rfl, rfl⟩

variable {rs : List RadixTreeNode} {pos : ℕ}

namespace MambaInv

theorem ref_eq_zero (h : MambaInv locks nodes mamba) (hn : n ∈ nodes) (hl : stop n ∉ locks) :
    n.mambaRefCount = 0 := by
  rw [h.ref n hn, List.count_eq_zero.mpr hl]
  rfl

/-- A node without a snapshot is not the node of a lock. -/
theorem not_mem_of_none (h : MambaInv locks nodes mamba) (hn : n ∈ nodes)
    (hv : n.mambaValue = none) : stop n ∉ locks := fun hl => by
  have := h.snapshot n hn hl
  rw [hv] at this
  exact absurd this (by decide)

variable (locks' n') in
/-- Overwriting the snapshot fields of a node, while locks on that node come or go. -/
protected theorem setNode (h : MambaInv locks nodes mamba) (hw : WF ps nodes) (hn : n ∈ nodes)
    (hs : n'.start = n.start) (hk : n'.key = n.key)
    (hcount : ∀ p, p ≠ stop n → locks'.count p = locks.count p)
    (hr : n'.mambaRefCount = (locks'.count (stop n) : ℕ))
    (hsnap : stop n ∈ locks' → n'.mambaValue.isSome) :
    MambaInv locks' (setNode nodes n n')
      ⟨mamba.evictable - mambaEvictable n + mambaEvictable n',
        mamba.protectedSize - mambaProtected n + mambaProtected n'⟩ := by
  have hstop : stop n' = stop n := by simp [stop, hs, hk]
  have hother : ∀ m ∈ nodes, m ≠ n → locks'.count (stop m) = locks.count (stop m) :=
    fun m hm hmn => hcount _ fun heq => hmn (hw.trie.stop_inj hm hn heq)
  refine ⟨fun m hm => ?_, fun m hm hl => ?_, ?_, ?_⟩
  · rcases (hw.mem_setNode hn).mp hm with rfl | ⟨hm, hmn⟩
    · rw [hr, hstop]
    · rw [h.ref m hm, hother m hm hmn]
  · rcases (hw.mem_setNode hn).mp hm with rfl | ⟨hm, hmn⟩
    · exact hsnap (hstop ▸ hl)
    · refine h.snapshot m hm ?_
      rw [← List.count_pos_iff, ← hother m hm hmn]
      exact List.count_pos_iff.mpr hl
  · rw [hw.total_setNode hn, h.evictable]
  · rw [hw.total_setNode hn, h.protectedSize]

theorem setNode_same (h : MambaInv locks nodes mamba) (hw : WF ps nodes) (hn : n ∈ nodes)
    (hs : n'.start = n.start) (hk : n'.key = n.key) (hv : n'.mambaValue = n.mambaValue)
    (hr : n'.mambaRefCount = n.mambaRefCount) :
    MambaInv locks (FreeToken.setNode nodes n n') mamba := by
  have hset := h.setNode locks n' hw hn hs hk (fun _ _ => rfl)
    (hr.trans (h.ref n hn)) (fun hl => hv ▸ h.snapshot n hn hl)
  have h₁ : mambaEvictable n' = mambaEvictable n := by rw [mambaEvictable, mambaEvictable, hv, hr]
  have h₂ : mambaProtected n' = mambaProtected n := by rw [mambaProtected, mambaProtected, hv, hr]
  rw [h₁, h₂, sub_add_cancel, sub_add_cancel] at hset
  exact hset

protected theorem splitNode (h : MambaInv locks nodes mamba) (hw : WF ps nodes)
    (ha : ∀ q ∈ locks, IsAddress nodes q) (hn : n ∈ nodes) (hc : CutAt ps n pos) :
    MambaInv locks (splitNode nodes n pos) mamba := by
  have hup : stop (n.splitAt pos).1 ∉ locks := fun hl => hw.not_isAddress_splitAt hn hc (ha _ hl)
  have h₁ : mambaEvictable (n.splitAt pos).1 = 0 := by simp [mambaEvictable, splitAt]
  have h₂ : mambaProtected (n.splitAt pos).1 = 0 := by simp [mambaProtected, splitAt]
  have h₃ : mambaEvictable (n.splitAt pos).2 = mambaEvictable n := rfl
  have h₄ : mambaProtected (n.splitAt pos).2 = mambaProtected n := rfl
  refine ⟨fun m hm => ?_, fun m hm hl => ?_, ?_, ?_⟩
  · rcases (hw.mem_splitNode hn).mp hm with rfl | rfl | ⟨hm, -⟩
    · rw [List.count_eq_zero.mpr hup]
      rfl
    · rw [stop_splitAt_snd]
      exact h.ref n hn
    · exact h.ref m hm
  · rcases (hw.mem_splitNode hn).mp hm with rfl | rfl | ⟨hm, -⟩
    · exact absurd hl hup
    · rw [stop_splitAt_snd] at hl
      exact h.snapshot n hn hl
    · exact h.snapshot m hm hl
  · rw [hw.total_splitNode hn, h₁, h₃, h.evictable]
    ring
  · rw [hw.total_splitNode hn, h₂, h₄, h.protectedSize]
    ring

theorem reshape (h : MambaInv locks nodes mamba) (hkv : KvInv ps locks nodes full)
    (hr : Reshape ps nodes nodes') : MambaInv locks nodes' mamba := by
  induction hr with
  | refl => exact h
  | tail hr hs ih =>
    have hkv' := Reshape.kvInv hr hkv
    cases hs with
    | stamp hn t => exact ih.setNode_same hkv'.wf hn (by rfl) (by rfl) (by rfl) (by rfl)
    | split hn hc => exact ih.splitNode hkv'.wf hkv'.locked hn hc

protected theorem link (h : MambaInv locks nodes mamba) (hv : n.mambaValue = none)
    (hr : n.mambaRefCount = 0) (hl : stop n ∉ locks) : MambaInv locks (nodes ++ [n]) mamba := by
  refine ⟨fun m hm => ?_, fun m hm hml => ?_, ?_, ?_⟩
  · rcases List.mem_append.mp hm with hm | hm
    · exact h.ref m hm
    · rw [List.mem_singleton.mp hm, hr, List.count_eq_zero.mpr hl]
      rfl
  · rcases List.mem_append.mp hm with hm | hm
    · exact h.snapshot m hm hml
    · exact absurd (List.mem_singleton.mp hm ▸ hml) hl
  · rw [total_append, total_cons, total_nil, h.evictable]
    simp [mambaEvictable, hv]
  · rw [total_append, total_cons, total_nil, h.protectedSize]
    simp [mambaProtected, hv]

theorem removes (h : MambaInv locks nodes mamba)
    (hkv : KvInv ps locks nodes full) (hr : Removes nodes rs nodes') :
    MambaInv locks nodes'
      { mamba with evictable := mamba.evictable - total mambaEvictable rs } := by
  have hsub : ∀ m ∈ nodes', m ∈ nodes := fun m hm => ((hr.mem_iff hkv.wf).mp hm).1
  refine ⟨fun m hm => h.ref m (hsub m hm), fun m hm => h.snapshot m (hsub m hm), ?_, ?_⟩
  · rw [hr.total_eq hkv.wf, h.evictable]
  · have h0 : total mambaProtected rs = 0 := total_eq_zero fun m hm => by
      obtain ⟨hmn, hm0⟩ := hr.unlocked hkv.wf hm
      have hl : stop m ∉ locks := fun hl =>
        absurd hm0 (hkv.ref_pos_of_locked hmn hl List.prefix_rfl).ne'
      simp [mambaProtected, h.ref_eq_zero hmn hl]
    rw [hr.total_eq hkv.wf, h0, h.protectedSize, sub_zero]

end MambaInv

/-! ### Snapshots of locked nodes -/

/-- The nodes of the locks keep their snapshots. -/
def KeepsSnapshots (locks : List Path) (nodes nodes' : List RadixTreeNode) : Prop :=
  ∀ n ∈ nodes, stop n ∈ locks → ∃ n' ∈ nodes', stop n' = stop n ∧ n'.mambaValue = n.mambaValue

namespace KeepsSnapshots

theorem refl : KeepsSnapshots locks nodes nodes := fun n hn _ => ⟨n, hn, rfl, rfl⟩

theorem trans {nodes₂ : List RadixTreeNode} (h : KeepsSnapshots locks nodes nodes')
    (h' : KeepsSnapshots locks nodes' nodes₂) : KeepsSnapshots locks nodes nodes₂ := by
  intro n hn hl
  obtain ⟨m, hm, hs, hv⟩ := h n hn hl
  obtain ⟨k, hk, hs', hv'⟩ := h' m hm (hs ▸ hl)
  exact ⟨k, hk, hs'.trans hs, hv'.trans hv⟩

protected theorem setNode (hw : WF ps nodes) (hn : n ∈ nodes) (hs : n'.start = n.start)
    (hk : n'.key = n.key) (hv : stop n ∈ locks → n'.mambaValue = n.mambaValue) :
    KeepsSnapshots locks nodes (setNode nodes n n') := by
  intro m hm hl
  by_cases hmn : m = n
  · subst hmn
    exact ⟨n', (hw.mem_setNode hn).mpr (Or.inl rfl), by simp [stop, hs, hk], hv hl⟩
  · exact ⟨m, (hw.mem_setNode hn).mpr (Or.inr ⟨hm, hmn⟩), rfl, rfl⟩

protected theorem splitNode (hw : WF ps nodes) (hn : n ∈ nodes) :
    KeepsSnapshots locks nodes (splitNode nodes n pos) := by
  intro m hm _
  by_cases hmn : m = n
  · subst hmn
    exact ⟨(m.splitAt pos).2, (hw.mem_splitNode hn).mpr (Or.inr (Or.inl rfl)), stop_splitAt_snd _ _,
      rfl⟩
  · exact ⟨m, (hw.mem_splitNode hn).mpr (Or.inr (Or.inr ⟨hm, hmn⟩)), rfl, rfl⟩

theorem reshape (hw : WF ps nodes) (hr : Reshape ps nodes nodes') :
    KeepsSnapshots locks nodes nodes' := by
  induction hr with
  | refl => exact refl
  | tail hr hs ih =>
    have hw' := Reshape.wf hr hw
    cases hs with
    | stamp hn t => exact ih.trans (.setNode hw' hn (by rfl) (by rfl) fun _ => rfl)
    | split hn _ => exact ih.trans (.splitNode hw' hn)

/-- Removing unlocked leaves. -/
theorem removes (hkv : KvInv ps locks nodes full)
    (hr : Removes nodes rs nodes') : KeepsSnapshots locks nodes nodes' := by
  intro n hn hl
  refine ⟨n, (hr.mem_iff hkv.wf).mpr ⟨hn, fun hrs => ?_⟩, rfl, rfl⟩
  exact absurd (hr.unlocked hkv.wf hrs).2 (hkv.ref_pos_of_locked hn hl List.prefix_rfl).ne'

theorem of_sameCore (hs : SameCore nodes nodes') : KeepsSnapshots locks nodes nodes' := by
  intro n hn _
  obtain ⟨m, hm, hmn⟩ := hs.symm.exists_mem hn
  refine ⟨m, hm, stop_of_core hmn, ?_⟩
  have := congrArg RadixTreeNode.mambaValue hmn
  exact this

end KeepsSnapshots

/-- The two currencies of a cache with outstanding locks `locks`. -/
structure HybridRadixCache.Inv (c : HybridRadixCache) (locks : List Path) : Prop where
  kv : KvInv c.pageSize locks c.nodes c.full
  mamba : MambaInv locks c.nodes c.mamba

variable {a : Path} {c' : HybridRadixCache} {r : EvictResult} {ids : List Token}

namespace HybridRadixCache

variable {c : HybridRadixCache}

/-! ### `match_prefix` -/

theorem pathLen_eq (h : WF ps nodes) (ha : IsAddress nodes a) :
    pathLen nodes a = a.length := by
  induction ha using h.trie.address_induct with
  | root => rfl
  | edge n hn ih =>
    unfold pathLen at ih ⊢
    have hlen : (stop n).length = n.start.length + n.length := length_stop n
    rw [h.trie.ancestors_stop hn, List.map_cons, List.sum_cons, ih, hlen, start_eq]
    exact Nat.add_comm _ _

/-- The walk up finds the deepest snapshot above an address. -/
theorem deepestSnapshot_spec (h : WF ps nodes) (ha : IsAddress nodes a) :
    match deepestSnapshot (ancestors nodes a) a.length with
    | none => ∀ n ∈ nodes, stop n <+: a → n.mambaValue = none
    | some (cur, len) => cur ∈ nodes ∧ stop cur <+: a ∧ len = (stop cur).length ∧
        cur.mambaValue.isSome ∧
        ∀ n ∈ nodes, stop n <+: a → n.mambaValue.isSome → (stop n).length ≤ len := by
  induction ha using h.trie.address_induct with
  | root =>
    simp only [IsTrie.ancestors_nil, deepestSnapshot]
    exact fun n hn hpre => absurd (List.prefix_nil.mp hpre) (h.trie.stop_ne_nil hn)
  | edge n hn ih =>
    rw [h.trie.ancestors_stop hn, deepestSnapshot]
    by_cases hv : n.mambaValue.isSome
    · rw [if_pos hv]
      exact ⟨hn, List.prefix_rfl, rfl, hv, fun m _ hpre _ => hpre.length_le⟩
    · have hlen : (stop n).length - n.length = n.start.length := by
        have : (stop n).length = n.start.length + n.length := length_stop n
        omega
      rw [if_neg hv, hlen]
      rw [start_eq] at ih ⊢
      -- above `n` the path is the one of its parent
      have hup : ∀ m ∈ nodes, m ≠ n → (stop m <+: stop n ↔ stop m <+: n.start) := fun m hm hne =>
        prefix_stop_iff h hn hm hne
      cases hd : deepestSnapshot (ancestors nodes n.start) n.start.length with
      | none =>
        rw [hd] at ih
        intro m hm hpre
        by_cases hmn : m = n
        · rw [hmn]
          simpa using hv
        · exact ih m hm ((hup m hm hmn).mp hpre)
      | some r =>
        obtain ⟨cur, len⟩ := r
        rw [hd] at ih
        obtain ⟨hcur, hpre, hl, hs, hmax⟩ := ih
        refine ⟨hcur, hpre.trans (start_prefix_stop n), hl, hs, fun m hm hmp hmv => ?_⟩
        by_cases hmn : m = n
        · exact absurd (hmn ▸ hmv) hv
        · exact hmax m hm ((hup m hm hmn).mp hmp) hmv

/-- What `match_prefix` does and returns. -/
structure MatchSpec (c : HybridRadixCache) (ids : List Token) (c' : HybridRadixCache)
    (r : HybridMatch) (m : ℕ) : Prop where
  reshape : Reshape c.pageSize c.nodes c'.nodes
  fields : c'.pageSize = c.pageSize ∧ c'.full = c.full ∧ c'.mamba = c.mamba
  longest : IsLongest c.pageSize (Resident c.nodes) ids m
  address : IsAddress c'.nodes (ids.take m)
  le : r.cachedLen ≤ m
  node_eq : r.node = ids.take r.cachedLen
  nodeAddress : IsAddress c'.nodes r.node
  kvIndices : r.kvIndices = getMatchedIndices c'.nodes r.node
  /-- The root, or the deepest node of the matched path with a live snapshot. -/
  snapshot : r.node = [] ∧ r.mambaValue = none ∨
    ∃ n ∈ c'.nodes, stop n = r.node ∧ n.mambaValue = r.mambaValue ∧ n.mambaValue.isSome
  max : ∀ n ∈ c'.nodes, stop n <+: ids.take m → n.mambaValue.isSome →
    (stop n).length ≤ r.cachedLen

/-- **A match returns the deepest node with a live snapshot.** -/
theorem matchPrefix_spec (h : WF c.pageSize c.nodes) (ids : List Token) (tic : ℤ) :
    ∃ m, MatchSpec c ids (c.matchPrefix ids tic).1 (c.matchPrefix ids tic).2 m := by
  obtain ⟨nodes', m, heq, hr, ha, hl⟩ := treeWalk_spec h ids tic
  have hw := hr.wf h
  have hspec := deepestSnapshot_spec hw ha
  have hlen : (ids.take m).length = m := by
    rw [List.length_take]
    exact Nat.min_eq_left hl.le
  refine ⟨m, ?_⟩
  unfold matchPrefix
  simp only [heq, pathLen_eq hw ha]
  cases hd : deepestSnapshot (ancestors nodes' (ids.take m)) (ids.take m).length with
  | none =>
    rw [hd] at hspec
    refine ⟨hr, ⟨rfl, rfl, rfl⟩, hl, ha, Nat.zero_le _, by simp, isAddress_nil _, rfl,
      Or.inl ⟨rfl, rfl⟩, fun n hn hpre hv => ?_⟩
    rw [hspec n hn hpre] at hv
    exact absurd hv (by decide)
  | some r =>
    obtain ⟨cur, len⟩ := r
    rw [hd] at hspec
    obtain ⟨hcur, hpre, rfl, hs, hmax⟩ := hspec
    have hle : (stop cur).length ≤ m := hlen ▸ hpre.length_le
    refine ⟨hr, ⟨rfl, rfl, rfl⟩, hl, ha, hle, ?_, isAddress_stop hcur, rfl,
      Or.inr ⟨cur, hcur, rfl, rfl, hs⟩, hmax⟩
    have := List.prefix_iff_eq_take.mp hpre
    rwa [List.take_take, Nat.min_eq_left hle] at this

/-! ### `insert` -/

theorem donate_spec (h : c.Inv locks) (hn : n ∈ c.nodes) (v : ℕ) :
    ∃ c', c.donate (stop n) v = (c', n.mambaValue.isSome) ∧ c'.pageSize = c.pageSize ∧
      c'.Inv locks ∧ pages c.pageSize c'.nodes = pages c.pageSize c.nodes ∧
      (∀ a, IsAddress c.nodes a → IsAddress c'.nodes a) ∧
      (∀ g : List Slot → ℤ, total (fun m => g m.value) c'.nodes =
        total (fun m => g m.value) c.nodes) ∧
      (∀ w, total (snapshotCount w) c'.nodes = total (snapshotCount w) c.nodes +
        if n.mambaValue.isSome then 0 else if v = w then 1 else 0) ∧
      KeepsSnapshots locks c.nodes c'.nodes ∧
      ((∀ m ∈ c.nodes, IsLeaf c.nodes (stop m) → stop m ≠ stop n → hasNoSnapshot m = false) →
        LeavesAlive hasNoSnapshot c'.nodes) := by
  have hw := h.kv.wf
  cases hv : n.mambaValue with
  | some w =>
    have hdon : c.donate (stop n) v = (c, true) := by
      simp [donate, hw.trie.edgeAt_stop hn, hv]
    refine ⟨c, hdon, rfl, h, rfl, fun _ ha => ha, fun _ => rfl, fun w => by simp, .refl,
      fun hl m hm hleaf => ?_⟩
    by_cases hmn : stop m = stop n
    · rw [hw.trie.stop_inj hm hn hmn, hasNoSnapshot, hv]
      rfl
    · exact hl m hm hleaf hmn
  | none =>
    -- a node without a snapshot carries no snapshot lock
    have hl := h.mamba.not_mem_of_none hn hv
    have h0 := h.mamba.ref_eq_zero hn hl
    obtain ⟨n', hn'⟩ : ∃ n', n' = { n with mambaValue := some v } := ⟨_, rfl⟩
    have hs : n'.start = n.start := by rw [hn']
    have hk : n'.key = n.key := by rw [hn']
    have hvl : n'.value = n.value := by rw [hn']
    have hset := h.mamba.setNode locks n' hw hn hs hk (fun _ _ => rfl)
      (by rw [hn']; exact h.mamba.ref n hn) (fun hl' => absurd hl' hl)
    have e₁ : mambaEvictable n = 0 := by simp [mambaEvictable, hv]
    have e₂ : mambaEvictable n' = 1 := by simp [mambaEvictable, hn', h0]
    have e₃ : mambaProtected n = 0 := by simp [mambaProtected, hv]
    have e₄ : mambaProtected n' = 0 := by simp [mambaProtected, hn', h0]
    rw [e₁, e₂, e₃, e₄, sub_zero, sub_zero, add_zero] at hset
    have hdon : c.donate (stop n) v = ({ c with
        nodes := setNode c.nodes n n'
        mamba := { c.mamba with evictable := c.mamba.evictable + 1 } }, false) := by
      simp [donate, hw.trie.edgeAt_stop hn, hv, h0, hn']
    refine ⟨_, hdon, rfl, ⟨h.kv.setNode hn hs hk (by rw [hvl]) (by rw [hn']), hset⟩,
      hw.pages_setNode hn hs hk hvl, fun a ha => hw.isAddress_setNode hn hs hk ha, fun g => ?_,
      fun w => ?_, .setNode hw hn hs hk fun hl' => absurd hl' hl, fun hl' m hm hleaf => ?_⟩
    · simp only [hw.total_setNode hn, hvl]
      ring
    · have g₁ : snapshotCount w n = 0 := by simp [snapshotCount, hv]
      have g₂ : snapshotCount w n' = if v = w then 1 else 0 := by simp [snapshotCount, hn']
      simp only [hw.total_setNode hn, g₁, g₂, Option.isSome_none, Bool.false_eq_true, if_false]
      ring
    · simp only at hm hleaf
      rw [hw.isLeaf_setNode hn hs] at hleaf
      rcases (hw.mem_setNode hn).mp hm with rfl | ⟨hm, hmn⟩
      · rw [hasNoSnapshot, hn']
        rfl
      · exact hl' m hm hleaf fun heq => hmn (hw.trie.stop_inj hm hn heq)

theorem insert_eq (c : HybridRadixCache) (ids : List Token) (kv : List Slot) (v : ℕ)
    (tic now : ℤ) {p : RadixPrefixCache} {m : ℕ} {handle : RadixCacheHandle}
    (hp : (p, m, handle) =
      (RadixPrefixCache.mk c.pageSize c.nodes c.full).insertPrefix ids kv tic now) :
    c.insert ids kv v tic now =
      (({ c with nodes := p.nodes, full := p.sizes }.donate handle.node v).1, m,
        ({ c with nodes := p.nodes, full := p.sizes }.donate handle.node v).2) := by
  unfold RadixPrefixCache.insertPrefix at hp
  unfold insert
  simp only at hp ⊢
  split at hp
  · next hne =>
    obtain ⟨rfl, rfl, rfl⟩ := by simpa using hp
    simp only [if_pos hne]
  · next he =>
    obtain ⟨rfl, rfl, rfl⟩ := by simpa using hp
    simp only [if_neg he]

/-- **`insert` keeps the two currencies**, and accounts for the slots and the snapshot it is
handed. -/
theorem insert_spec (h : c.Inv locks) {kv : List Slot}
    (hkv : ids.length = kv.length) (v : ℕ) (tic now : ℤ) :
    ∃ c' m exist, c.insert ids kv v tic now = (c', m, exist) ∧ c'.pageSize = c.pageSize ∧
      c'.Inv locks ∧ IsAddress c'.nodes (ids.take (alignDown ids.length c.pageSize)) ∧
      IsLongest c.pageSize (Resident c.nodes) (ids.take (alignDown ids.length c.pageSize)) m ∧
      pages c.pageSize c'.nodes = (pages c.pageSize c.nodes).insert c.pageSize
        (ids.take (alignDown ids.length c.pageSize)) (kv.take (alignDown ids.length c.pageSize)) ∧
      (∀ a, IsAddress c.nodes a → IsAddress c'.nodes a) ∧
      (∀ g : List Slot → ℤ, Splits c.pageSize (fun n => g n.value) → g [] = 0 →
        total (fun n => g n.value) c'.nodes = total (fun n => g n.value) c.nodes +
          g ((kv.take (alignDown ids.length c.pageSize)).drop m)) ∧
      (∀ w, total (snapshotCount w) c'.nodes = total (snapshotCount w) c.nodes +
        if exist then 0 else if v = w then 1 else 0) ∧
      KeepsSnapshots locks c.nodes c'.nodes ∧
        (LeavesAlive hasNoSnapshot c.nodes → LeavesAlive hasNoSnapshot c'.nodes) := by
  obtain ⟨p, m, heq, hps, hinv, ha, hl, hpg, htot, nodes₁, hr, hnodes⟩ :=
    RadixPrefixCache.insertPrefix_spec (c := ⟨c.pageSize, c.nodes, c.full⟩) h.kv hkv tic now
  simp only at hps ha hl hpg htot hr
  rw [insert_eq c ids kv v tic now heq.symm]
  obtain ⟨L, hL⟩ : ∃ L, L = alignDown ids.length c.pageSize := ⟨_, rfl⟩
  rw [← hL] at ha hl hpg htot hnodes ⊢
  simp only
  have hkv₁ : KvInv c.pageSize locks p.nodes p.sizes := hps ▸ hinv
  have hm₁ := h.mamba.reshape h.kv hr
  have hr₁ := hr.kvInv h.kv
  -- the tree before the donation
  have hbase : MambaInv locks p.nodes c.mamba ∧ KeepsSnapshots locks c.nodes p.nodes ∧
      (∀ a, IsAddress c.nodes a → IsAddress p.nodes a) ∧
      (∀ w, total (snapshotCount w) p.nodes = total (snapshotCount w) c.nodes) ∧
      (LeavesAlive hasNoSnapshot c.nodes → ∀ k ∈ p.nodes, IsLeaf p.nodes (stop k) →
        stop k ≠ ids.take L → hasNoSnapshot k = false) := by
    have hla : LeavesAlive hasNoSnapshot c.nodes → LeavesAlive hasNoSnapshot nodes₁ := fun hla =>
      hla.reshape (fun _ _ => rfl) (fun _ _ => rfl) h.kv.wf hr
    rcases hnodes with hn | ⟨n, hn, h0, hv, hr0, hst⟩
    · rw [hn]
      exact ⟨hm₁, .reshape h.kv.wf hr, fun a ha => hr.isAddress h.kv.wf ha,
        fun w => hr.total_eq h.kv.wf (splits_snapshotCount w), fun h' k hk hleaf _ =>
          hla h' k hk hleaf⟩
    · have hwn : WF c.pageSize (nodes₁ ++ [n]) := hn ▸ hkv₁.wf
      have hnew : stop n ∉ locks := fun hl' =>
        hr₁.wf.not_prefix_of_link hwn (hr₁.locked _ hl') List.prefix_rfl
      rw [hn]
      refine ⟨hm₁.link hv hr0 hnew, (KeepsSnapshots.reshape h.kv.wf hr).trans fun k hk _ =>
        ⟨k, List.mem_append_left _ hk, rfl, rfl⟩, fun a ha => (hr.isAddress h.kv.wf ha).mono
          fun k hk =>
        ⟨k, List.mem_append_left _ hk, rfl⟩, fun w => ?_, fun h' => hst ▸ (hla h').link_dead⟩
      rw [total_append, total_cons, total_nil, hr.total_eq h.kv.wf (splits_snapshotCount w)]
      simp [snapshotCount, hv]
  obtain ⟨hmb, hkb, hab, hsb, hlb⟩ := hbase
  have hinv₁ : HybridRadixCache.Inv { c with nodes := p.nodes, full := p.sizes } locks :=
    ⟨hkv₁, hmb⟩
  rcases ha with h0 | ⟨n, hn, hst⟩
  · -- the root takes no snapshot
    have hd : ({ c with nodes := p.nodes, full := p.sizes } : HybridRadixCache).donate
        (ids.take L) v = ({ c with nodes := p.nodes, full := p.sizes }, true) := by
      rw [h0]
      unfold donate
      rw [hkv₁.wf.trie.edgeAt_nil]
    rw [hd]
    refine ⟨_, m, true, rfl, rfl, hinv₁, Or.inl h0, hl, hpg, hab, htot, fun w => by simp [hsb w],
      hkb, fun h' k hk hleaf => hlb h' k hk hleaf ?_⟩
    rw [h0]
    exact hkv₁.wf.trie.stop_ne_nil hk
  · obtain ⟨c', hd, hp', hinv', hpg', hab', htot', hsn', hks', hla'⟩ := donate_spec hinv₁ hn v
    rw [← hst, hd]
    refine ⟨c', m, n.mambaValue.isSome, rfl, hp', hinv', hab' _ (isAddress_stop hn), hst ▸ hl, ?_,
      fun a ha => hab' a (hab a ha), fun g hg h0 => ?_, fun w => ?_, hkb.trans hks',
      fun h' => hla' ?_⟩
    · rw [hst, ← hpg]
      exact hpg'
    · rw [htot' g]
      exact htot g hg h0
    · rw [hsn' w, ← hsb w]
    · exact hst ▸ hlb h'

/-! ### Locking -/

/-- A lock may be taken on the root or on a node with a live snapshot, as a handle of
`match_prefix` is. -/
def SnapshotNode (nodes : List RadixTreeNode) (a : Path) : Prop :=
  a = [] ∨ ∃ n ∈ nodes, stop n = a ∧ n.mambaValue.isSome

/-- The node of a match may be locked. -/
theorem MatchSpec.snapshotNode {r : HybridMatch} {m : ℕ}
    (h : MatchSpec c ids c' r m) : SnapshotNode c'.nodes r.node := by
  rcases h.snapshot with ⟨h0, -⟩ | ⟨n, hn, hna, -, hs⟩
  · exact Or.inl h0
  · exact Or.inr ⟨n, hn, hna, hs⟩

theorem MambaInv.congr_root (h : MambaInv locks nodes mamba) (hw : WF ps nodes)
    (hcount : ∀ p, p ≠ [] → locks'.count p = locks.count p) : MambaInv locks' nodes mamba := by
  refine ⟨fun m hm => ?_, fun m hm hl => ?_, h.evictable, h.protectedSize⟩
  · rw [h.ref m hm, hcount _ (hw.trie.stop_ne_nil hm)]
  · refine h.snapshot m hm ?_
    rw [← List.count_pos_iff, ← hcount _ (hw.trie.stop_ne_nil hm)]
    exact List.count_pos_iff.mpr hl

theorem MambaInv.climb {σ : Type*} (step : σ → RadixTreeNode → σ × RadixTreeNode)
    (hstep : ∀ s n, ∃ k, (step s n).2 = { n with refCount := k }) (h : MambaInv locks nodes mamba)
    (hw : WF ps nodes) (ha : IsAddress nodes a) (s₀ : σ) :
    MambaInv locks (climb step a.length s₀ nodes a).2 mamba := by
  have hstart : ∀ s n, (step s n).2.start = n.start := fun s n => by
    obtain ⟨k, hk⟩ := hstep s n
    rw [hk]
  have hkey : ∀ s n, (step s n).2.key = n.key := fun s n => by
    obtain ⟨k, hk⟩ := hstep s n
    rw [hk]
  have hrun := climb_induct (M := fun _ l _ => WF ps l ∧ MambaInv locks l mamba) hstart hkey
    (fun s l e _ he hM => by
      obtain ⟨k, hk⟩ := hstep s e
      rw [hk]
      exact ⟨hM.1.setNode he rfl rfl rfl, hM.2.setNode_same hM.1 he rfl rfl rfl rfl⟩)
    a.length s₀ nodes a hw.trie ha le_rfl ⟨hw, h⟩
  exact hrun.2.2

theorem incMamba_spec (h : c.Inv locks) (hs : SnapshotNode c.nodes a) :
    KvInv c.pageSize locks (c.incMamba a).nodes (c.incMamba a).full ∧
      MambaInv (a :: locks) (c.incMamba a).nodes (c.incMamba a).mamba ∧
      SameCore c.nodes (c.incMamba a).nodes ∧ (c.incMamba a).pageSize = c.pageSize := by
  have hw := h.kv.wf
  rcases hs with rfl | ⟨n, hn, rfl, hv⟩
  · have hinc : c.incMamba [] = c := by
      unfold incMamba
      rw [hw.trie.edgeAt_nil]
    rw [hinc]
    exact ⟨h.kv, MambaInv.congr_root h.mamba hw fun p hp => by simp [hp.symm], .refl _, rfl⟩
  · obtain ⟨n', hn'⟩ : ∃ n', n' = { n with mambaRefCount := n.mambaRefCount + 1 } := ⟨_, rfl⟩
    have hs : n'.start = n.start := by rw [hn']
    have hk : n'.key = n.key := by rw [hn']
    have hnn : 0 ≤ n.mambaRefCount := by
      rw [h.mamba.ref n hn]
      exact Int.natCast_nonneg _
    have hset := h.mamba.setNode (stop n :: locks) n' hw hn hs hk
      (fun p hp => by simp [hp.symm])
      (by
        have := h.mamba.ref n hn
        rw [hn', List.count_cons_self]
        push_cast
        omega)
      (fun _ => by rw [hn']; exact hv)
    have e₁ : mambaEvictable n' = 0 := by
      have : n.mambaRefCount + 1 ≠ 0 := by omega
      simp [mambaEvictable, hn', this]
    have e₂ : mambaProtected n' = 1 := by
      have : n.mambaRefCount + 1 ≠ 0 := by omega
      simp [mambaProtected, hn', this, hv]
    have hinc : c.incMamba (stop n) = { c with
        nodes := setNode c.nodes n n'
        mamba := ⟨c.mamba.evictable - mambaEvictable n + mambaEvictable n',
          c.mamba.protectedSize - mambaProtected n + mambaProtected n'⟩ } := by
      unfold incMamba
      rw [hw.trie.edgeAt_stop hn, e₁, e₂, mambaEvictable, mambaProtected]
      by_cases h0 : n.mambaRefCount = 0 <;> simp [hv, h0, hn']
    rw [hinc]
    exact ⟨h.kv.setNode hn hs hk (by rw [hn']) (by rw [hn']), hset,
      SameCore.setNode hw hn (by rw [hn']; rfl), rfl⟩

/-- **Locking a node** adds it to the outstanding locks. -/
theorem incLock_spec (h : c.Inv locks) (ha : IsAddress c.nodes a)
    (hs : SnapshotNode c.nodes a) :
    (c.incLock a).Inv (a :: locks) ∧ SameCore c.nodes (c.incLock a).nodes ∧
      (c.incLock a).pageSize = c.pageSize := by
  obtain ⟨hkv, hm, hsame, hp⟩ := incMamba_spec h hs
  obtain ⟨hkv', hsame'⟩ := hkv.lock (hsame.isAddress ha)
  have hm' := MambaInv.climb incRef (fun s n => ⟨n.refCount + 1, rfl⟩) hm hkv.wf
    (hsame.isAddress ha) (c.incMamba a).full
  refine ⟨⟨?_, hm'⟩, hsame.trans hsame', hp⟩
  exact (show (c.incLock a).pageSize = c.pageSize from hp) ▸ hkv'

theorem decMamba_spec (h : c.Inv locks) (ha : a ∈ locks) :
    KvInv c.pageSize locks (c.decMamba a).nodes (c.decMamba a).full ∧
      MambaInv (locks.erase a) (c.decMamba a).nodes (c.decMamba a).mamba ∧
      SameCore c.nodes (c.decMamba a).nodes ∧ (c.decMamba a).pageSize = c.pageSize := by
  have hw := h.kv.wf
  rcases h.kv.locked a ha with rfl | ⟨n, hn, rfl⟩
  · have hdec : c.decMamba [] = c := by
      unfold decMamba
      rw [hw.trie.edgeAt_nil]
    rw [hdec]
    exact ⟨h.kv, MambaInv.congr_root h.mamba hw fun p hp => List.count_erase_of_ne hp, .refl _, rfl⟩
  · have hv := h.mamba.snapshot n hn ha
    have hpos : 0 < n.mambaRefCount := by
      have := List.count_pos_iff.mpr ha
      rw [h.mamba.ref n hn]
      omega
    obtain ⟨n', hn'⟩ : ∃ n', n' = { n with mambaRefCount := n.mambaRefCount - 1 } := ⟨_, rfl⟩
    have hs : n'.start = n.start := by rw [hn']
    have hk : n'.key = n.key := by rw [hn']
    have hset := h.mamba.setNode (locks.erase (stop n)) n' hw hn hs hk
      (fun p hp => List.count_erase_of_ne hp)
      (by
        have h₁ := h.mamba.ref n hn
        have h₂ := List.count_pos_iff.mpr ha
        have h₃ : n'.mambaRefCount = n.mambaRefCount - 1 := by rw [hn']
        rw [h₃, List.count_erase_self]
        omega)
      (fun _ => by rw [hn']; exact hv)
    have e₁ : mambaEvictable n = 0 := by simp [mambaEvictable, hpos.ne']
    have e₂ : mambaProtected n = 1 := by simp [mambaProtected, hpos.ne', hv]
    have hdec : c.decMamba (stop n) = { c with
        nodes := setNode c.nodes n n'
        mamba := ⟨c.mamba.evictable - mambaEvictable n + mambaEvictable n',
          c.mamba.protectedSize - mambaProtected n + mambaProtected n'⟩ } := by
      unfold decMamba
      rw [hw.trie.edgeAt_stop hn, e₁, e₂, mambaEvictable, mambaProtected]
      by_cases h0 : n.mambaRefCount - 1 = 0 <;> simp [hv, hpos, h0, hn']
    rw [hdec]
    exact ⟨h.kv.setNode hn hs hk (by rw [hn']) (by rw [hn']), hset,
      SameCore.setNode hw hn (by rw [hn']; rfl), rfl⟩

/-- **Releasing a lock** removes it from the outstanding locks. -/
theorem decLock_spec (h : c.Inv locks) (ha : a ∈ locks) :
    (c.decLock a).Inv (locks.erase a) ∧ SameCore c.nodes (c.decLock a).nodes ∧
      (c.decLock a).pageSize = c.pageSize := by
  obtain ⟨hkv, hm, hsame, hp⟩ := decMamba_spec h ha
  obtain ⟨hkv', hsame'⟩ := hkv.unlock ha
  have hm' := MambaInv.climb decRef (fun s n => ⟨n.refCount - 1, rfl⟩) hm hkv.wf
    (hkv.locked a ha) (c.decMamba a).full
  refine ⟨⟨?_, hm'⟩, hsame.trans hsame', hp⟩
  exact (show (c.decLock a).pageSize = c.pageSize from hp) ▸ hkv'

/-! ### Taking out a leaf -/

theorem freeNodeMamba_spec {t : ℤ × List ℕ} (h0 : n.mambaRefCount = 0) (v : ℕ) :
    (freeNodeMamba t n).1 = t.1 - mambaEvictable n ∧
      ((freeNodeMamba t n).2.count v : ℤ) = t.2.count v + snapshotCount v n ∧
      ((freeNodeMamba t n).2.length : ℤ) = t.2.length + mambaEvictable n := by
  unfold freeNodeMamba mambaEvictable snapshotCount
  cases hv : n.mambaValue with
  | none => simp
  | some w =>
    by_cases hwv : w = v <;> simp [h0, hwv]

/-- What taking out an unlocked leaf and the nodes without snapshot this exposes does to the
tree. -/
theorem evictLeaf_spec (hkv : KvInv ps locks nodes full) (hm : MambaInv locks nodes mamba)
    (hn : UnlockedLeaf nodes n) {r : Cascade}
    (hr : r = cascade hasNoSnapshot (unlinkNode nodes n) n.start) :
    ∃ rs, Removes nodes (n :: rs) r.nodes ∧ r.kv = valuesOf rs ∧ r.freed = tokensOf rs ∧
      (∀ m ∈ rs, m.mambaValue = none) ∧
      KvInv ps locks r.nodes { full with evictable := full.evictable - n.length - r.freed } ∧
      MambaInv locks r.nodes { mamba with evictable := mamba.evictable - mambaEvictable n } ∧
      (∀ v, total (snapshotCount v) r.nodes = total (snapshotCount v) nodes - snapshotCount v n) ∧
      (LeavesAlive hasNoSnapshot nodes → LeavesAlive hasNoSnapshot r.nodes) := by
  obtain ⟨rs, hs⟩ := cascade_spec (hkv.wf.unlinkNode hn.1.1 hn.1.2)
    (isAddress_unlinkNode_start hkv.wf hn.1)
  rw [← hr] at hs
  have hrem : Removes nodes (n :: rs) r.nodes := .cons hn hs.removes
  have hdead : ∀ m ∈ rs, m.mambaValue = none := fun m hm => by
    simpa [hasNoSnapshot] using hs.dead_of_mem m hm
  have hkv' := hrem.kvInv hkv
  have hm' := hm.removes hkv hrem
  have hev : total mambaEvictable (n :: rs) = mambaEvictable n := by
    rw [total_cons, total_eq_zero fun m hm => by simp [mambaEvictable, hdead m hm], add_zero]
  have hfull : full.evictable - (tokensOf (n :: rs) : ℤ) =
      full.evictable - n.length - r.freed := by
    rw [hs.freed, tokensOf_cons]
    push_cast
    ring
  rw [hfull] at hkv'
  rw [hev] at hm'
  refine ⟨rs, hrem, hs.kv, hs.freed, hdead, hkv', hm', fun v => ?_, fun hla =>
    hla.cascade hkv.wf hn.1 hs fun m hml h0 => ?_⟩
  · have h0 : total (snapshotCount v) rs = 0 :=
      total_eq_zero fun m hm => by simp [snapshotCount, hdead m hm]
    rw [hrem.total_eq hkv.wf, total_cons, h0, add_zero]
  · -- a locked leaf is the node of a lock, which keeps its snapshot
    have := hm'.snapshot m hml.1 (hkv'.mem_locks_of_leaf hml h0)
    simpa [hasNoSnapshot, Option.isSome_iff_ne_none] using this

/-! ### `evict_full` -/

theorem evictFull_spec (h : c.Inv locks) (H : Heapq timestamp) (k : ℕ)
    (hr : (c', r) = c.evictFull H k) :
    ∃ rs, Removes c.nodes rs c'.nodes ∧ r.kvIndices = valuesOf rs ∧
      LruEvicts hasNoSnapshot c.nodes (valuesOf rs) c'.nodes ∧
      (k ≤ tokensOf rs ∨ ∀ m, ¬UnlockedLeaf c'.nodes m) ∧ c'.Inv locks ∧
      c'.pageSize = c.pageSize ∧
      (∀ v, total (snapshotCount v) c'.nodes + (r.mambaSlots.count v : ℕ) =
        total (snapshotCount v) c.nodes) ∧
      (LeavesAlive hasNoSnapshot c.nodes → LeavesAlive hasNoSnapshot c'.nodes) := by
  -- the invariant of the loop: the snapshots of the nodes that are gone have been handed out
  let M : EvictState (ℤ × List ℕ) → Prop := fun s =>
    KvInv c.pageSize locks s.nodes { c.full with evictable := s.fullEvictable } ∧
      MambaInv locks s.nodes { c.mamba with evictable := s.extra.1 } ∧
      (∀ v, total (snapshotCount v) s.nodes + (s.extra.2.count v : ℕ) =
        total (snapshotCount v) c.nodes) ∧
      (LeavesAlive hasNoSnapshot c.nodes → LeavesAlive hasNoSnapshot s.nodes)
  obtain ⟨rs, hs, hM, hend⟩ := evictFullLoop_spec hasNoSnapshot freeNodeMamba k (M := M)
    (fun s n heap' hwf hh hp hM => by
      obtain ⟨hn, -, -⟩ := hh.pop hwf hp
      obtain ⟨hkv, hm, hled, hla⟩ := hM
      obtain ⟨rs, -, -, -, -, hkv', hm', hled', hla'⟩ := evictLeaf_spec hkv hm hn rfl
      have hl : stop n ∉ locks := fun hl =>
        absurd hn.2 (hkv.ref_pos_of_locked hn.1.1 hl List.prefix_rfl).ne'
      have hfree := freeNodeMamba_spec (t := s.extra) (hm.ref_eq_zero hn.1.1 hl)
      refine ⟨hkv', ?_, fun v => ?_, fun h' => hla' (hla h')⟩
      · simp only [evictNode, (hfree 0).1]
        exact hm'
      · have h₁ := hled v
        have h₂ := hled' v
        have h₃ := (hfree v).2.1
        simp only [evictNode]
        omega)
    (c.nodes.length + 1)
    { nodes := c.nodes, fullEvictable := c.full.evictable, extra := (c.mamba.evictable, [])
      heap := H.heapify (evictableLeaves c.nodes) } h.kv.wf (leafHeap_heapify h.kv.wf) (by simp)
    ⟨h.kv, h.mamba, fun v => by simp, id⟩
  obtain ⟨hc', hr'⟩ := Prod.mk.inj hr
  obtain ⟨kv, hkv, hlru⟩ := hs.lru
  have hkv' := hs.kv
  have hfreed := hs.freed
  rw [hkv, List.append_cancel_left_eq] at hkv'
  rw [List.nil_append] at hkv
  rw [zero_add] at hfreed
  rw [hc', hr']
  exact ⟨rs, hs.removes, by simp only [hkv, hkv'], hkv' ▸ hlru, hfreed ▸ hend, ⟨hM.1, hM.2.1⟩,
    rfl, hM.2.2.1, hM.2.2.2⟩

/-! ### `evict_mamba` -/

/-- A candidate of `evict_mamba`: a node with a snapshot that no lock protects. -/
def MambaCand (nodes : List RadixTreeNode) (n : RadixTreeNode) : Prop :=
  n ∈ nodes ∧ n.mambaValue.isSome ∧ n.mambaRefCount = 0

/-- The loop invariant of `evict_mamba`. -/
structure EvictMambaInv (locks : List Path) (c : HybridRadixCache) (s : EvictMambaState) :
    Prop where
  kvInv : KvInv c.pageSize locks s.nodes { c.full with evictable := s.fullEvictable }
  mambaInv : MambaInv locks s.nodes { c.mamba with evictable := s.mamba.1 }
  nodup : s.cands.Nodup
  cands : ∀ n, n ∈ s.cands ↔ MambaCand s.nodes n
  freed : s.freed = s.mamba.2.length
  kv_nil : s.freed = 0 → s.kv = []
  slots : ∀ x, total (slotCount x) s.nodes + (s.kv.count x : ℕ) = total (slotCount x) c.nodes
  snapshots : ∀ v, total (snapshotCount v) s.nodes + (s.mamba.2.count v : ℕ) =
    total (snapshotCount v) c.nodes
  keeps : KeepsSnapshots locks c.nodes s.nodes
  leaves : LeavesAlive hasNoSnapshot c.nodes → LeavesAlive hasNoSnapshot s.nodes

/-- What evicting the snapshot of an inner node does to the tree. -/
theorem tombstone_spec (hkv : KvInv ps locks nodes full) (hm : MambaInv locks nodes mamba)
    (hn : n ∈ nodes) (h0 : n.mambaRefCount = 0) :
    KvInv ps locks (setNode nodes n { n with mambaValue := none }) full ∧
      MambaInv locks (setNode nodes n { n with mambaValue := none })
        { mamba with evictable := mamba.evictable - mambaEvictable n } ∧
      (∀ x, total (slotCount x) (setNode nodes n { n with mambaValue := none }) =
        total (slotCount x) nodes) ∧
      (∀ v, total (snapshotCount v) (setNode nodes n { n with mambaValue := none }) =
        total (snapshotCount v) nodes - snapshotCount v n) ∧
      KeepsSnapshots locks nodes (setNode nodes n { n with mambaValue := none }) := by
  obtain ⟨n', hn'⟩ : ∃ n', n' = { n with mambaValue := none } := ⟨_, rfl⟩
  rw [← hn']
  have hl : stop n ∉ locks := fun hl => by
    have h₁ := List.count_pos_iff.mpr hl
    have h₂ := hm.ref n hn
    omega
  have e₁ : mambaEvictable n' = 0 := by simp [mambaEvictable, hn']
  have e₂ : mambaProtected n' = 0 := by simp [mambaProtected, hn']
  have e₃ : mambaProtected n = 0 := by simp [mambaProtected, h0]
  have hset := hm.setNode locks n' hkv.wf hn (by rw [hn']) (by rw [hn'])
    (fun _ _ => rfl) (by rw [hn']; exact hm.ref n hn) (fun hl' => absurd hl' hl)
  rw [e₁, e₂, e₃, add_zero, sub_zero, add_zero] at hset
  refine ⟨hkv.setNode hn (by rw [hn']) (by rw [hn']) (by rw [hn']) (by rw [hn']), hset,
    fun x => ?_, fun v => ?_, .setNode hkv.wf hn (by rw [hn']) (by rw [hn']) fun hl' =>
      absurd hl' hl⟩
  · have : slotCount x n' = slotCount x n := by rw [hn']; rfl
    rw [hkv.wf.total_setNode hn, this]
    ring
  · have : snapshotCount v n' = 0 := by simp [snapshotCount, hn']
    rw [hkv.wf.total_setNode hn, this]
    ring

theorem EvictMambaInv.round {s : EvictMambaState} {cands : List RadixTreeNode}
    (h : EvictMambaInv locks c s) (hp : s.cands.Perm (n :: cands)) :
    EvictMambaInv locks c (evictMambaNode s n cands) := by
  have hnd : (n :: cands).Nodup := hp.nodup_iff.mp h.nodup
  rw [List.nodup_cons] at hnd
  obtain ⟨hn, hsome, h0⟩ := (h.cands n).mp (hp.mem_iff.mpr List.mem_cons_self)
  have hmem : ∀ m, m ∈ cands ↔ MambaCand s.nodes m ∧ m ≠ n := by
    intro m
    rw [← h.cands m, hp.mem_iff, List.mem_cons]
    constructor
    · exact fun hm => ⟨Or.inr hm, fun heq => hnd.1 (heq ▸ hm)⟩
    · rintro ⟨hm | hm, hne⟩
      · exact absurd hm hne
      · exact hm
  have hfree := freeNodeMamba_spec (t := s.mamba) h0
  have hone : mambaEvictable n = 1 := by simp [mambaEvictable, hsome, h0]
  have hlen : s.freed + 1 = (freeNodeMamba s.mamba n).2.length := by
    have h₁ := (hfree 0).2.2
    have h₂ := h.freed
    omega
  unfold evictMambaNode
  split
  · next hc =>
    -- an unlocked leaf goes with its KV
    have hu : UnlockedLeaf s.nodes n := by
      simp only [Bool.and_eq_true, isLeaf_iff, decide_eq_true_eq] at hc
      exact ⟨⟨hn, hc.1⟩, hc.2⟩
    obtain ⟨rs, hrem, hkv, hfr, hdead, hkv', hm', hled, hla⟩ :=
      evictLeaf_spec h.kvInv h.mambaInv hu rfl
    have hiff := fun m => hrem.mem_iff h.kvInv.wf (m := m)
    refine ⟨hkv', ?_, hnd.2, fun m => ?_, hlen, fun hz => absurd hz (Nat.succ_ne_zero _), fun x =>
      ?_, fun v => ?_, h.keeps.trans (.removes h.kvInv hrem), fun h' => hla (h.leaves h')⟩
    · simp only [(hfree 0).1]
      exact hm'
    · rw [hmem]
      unfold MambaCand
      rw [hiff, List.mem_cons]
      constructor
      · rintro ⟨⟨hm, hms, hm0⟩, hne⟩
        refine ⟨⟨hm, ?_⟩, hms, hm0⟩
        rintro (rfl | hmr)
        · exact hne rfl
        · rw [hdead m hmr] at hms
          exact absurd hms (by decide)
      · rintro ⟨⟨hm, hno⟩, hms, hm0⟩
        exact ⟨⟨hm, hms, hm0⟩, fun heq => hno (Or.inl heq)⟩
    · have h₁ := hrem.total_eq h.kvInv.wf (slotCount x)
      have h₂ := h.slots x
      have h₃ := count_valuesOf rs x
      have h₄ : slotCount x n = (n.value.count x : ℕ) := rfl
      rw [total_cons] at h₁
      simp only [hkv, List.count_append]
      push_cast
      omega
    · have h₁ := hled v
      have h₂ := h.snapshots v
      have h₃ := (hfree v).2.1
      simp only
      omega
  · next hc =>
    -- an inner node stays, without its snapshot
    obtain ⟨hkv', hm', hsl, hsn, hks⟩ := tombstone_spec h.kvInv h.mambaInv hn h0
    refine ⟨hkv', ?_, hnd.2, fun m => ?_, hlen, fun hz => absurd hz (Nat.succ_ne_zero _), fun x =>
      ?_, fun v => ?_, h.keeps.trans hks, fun h' => ?_⟩
    · simp only [(hfree 0).1]
      exact hm'
    · rw [hmem]
      unfold MambaCand
      rw [h.kvInv.wf.mem_setNode hn]
      constructor
      · rintro ⟨⟨hm, hms, hm0⟩, hne⟩
        exact ⟨Or.inr ⟨hm, hne⟩, hms, hm0⟩
      · rintro ⟨rfl | ⟨hm, hne⟩, hms, hm0⟩
        · simp at hms
        · exact ⟨⟨hm, hms, hm0⟩, hne⟩
    · simp only [hsl x]
      exact h.slots x
    · have h₁ := hsn v
      have h₂ := h.snapshots v
      have h₃ := (hfree v).2.1
      simp only
      omega
    · refine (h.leaves h').setNode_inner h.kvInv.wf hn (by rfl) (by rfl) fun hleaf => hc ?_
      -- a locked leaf is the node of a lock, which counts on its snapshot
      rw [Bool.and_eq_true, isLeaf_iff, decide_eq_true_eq]
      refine ⟨hleaf, by_contra fun href => ?_⟩
      have h₁ := List.count_pos_iff.mpr (h.kvInv.mem_locks_of_leaf ⟨hn, hleaf⟩ href)
      have h₂ := h.mambaInv.ref n hn
      omega

theorem evictMambaLoop_spec {H : Heapq timestamp} {k : ℕ} :
    ∀ (fuel : ℕ) (s : EvictMambaState), EvictMambaInv locks c s → s.cands.length < fuel →
      EvictMambaInv locks c (evictMambaLoop H k fuel s) ∧
        (k ≤ (evictMambaLoop H k fuel s).freed ∨
          ∀ n, ¬MambaCand (evictMambaLoop H k fuel s).nodes n) := by
  intro fuel
  induction fuel with
  | zero => intro s _ hf; omega
  | succ fuel ih =>
    intro s h hf
    unfold evictMambaLoop
    by_cases hlt : s.freed < k
    swap
    · rw [if_neg hlt]
      exact ⟨h, Or.inl (not_lt.mp hlt)⟩
    rw [if_pos hlt]
    -- no candidate is left, or the least recent one gives up its snapshot
    cases hp : H.heappop s.cands with
    | none =>
      refine ⟨h, Or.inr fun n hn => ?_⟩
      have := (h.cands n).mpr hn
      rw [(H.heappop_eq_none _).mp hp] at this
      simp at this
    | some np =>
      obtain ⟨n, cands⟩ := np
      have hperm := H.heappop_perm _ _ _ hp
      obtain ⟨-, hsome, h0⟩ := (h.cands n).mp (hperm.mem_iff.mpr List.mem_cons_self)
      have hlen := hperm.length_eq
      rw [List.length_cons] at hlen
      have hcands : (evictMambaNode s n cands).cands = cands := by
        unfold evictMambaNode
        split <;> rfl
      have hcond : (n.mambaValue.isNone || decide (n.mambaRefCount ≠ 0)) = false := by
        simp [h0, Option.isNone_eq_false_iff.mpr hsome]
      simp only [hcond, Bool.false_eq_true, if_false]
      exact ih _ (h.round hperm) (by rw [hcands]; omega)

theorem evictMamba_spec (h : c.Inv locks) (H : Heapq timestamp) (k : ℕ)
    (hr : (c', r) = c.evictMamba H k) :
    c'.Inv locks ∧ c'.pageSize = c.pageSize ∧
      (∀ x, total (slotCount x) c'.nodes + (r.kvIndices.count x : ℕ) =
        total (slotCount x) c.nodes) ∧
      (∀ v, total (snapshotCount v) c'.nodes + (r.mambaSlots.count v : ℕ) =
        total (snapshotCount v) c.nodes) ∧
      (k ≤ r.mambaSlots.length ∨ ∀ n, ¬MambaCand c'.nodes n) ∧
      (r.mambaSlots = [] → r.kvIndices = []) ∧
      KeepsSnapshots locks c.nodes c'.nodes ∧
      (LeavesAlive hasNoSnapshot c.nodes → LeavesAlive hasNoSnapshot c'.nodes) := by
  have hstart : EvictMambaInv locks c
      { nodes := c.nodes, fullEvictable := c.full.evictable, mamba := (c.mamba.evictable, [])
        cands := H.heapify (c.nodes.filter fun n =>
          n.mambaValue.isSome && n.mambaRefCount = 0) } := by
    refine ⟨h.kv, h.mamba, H.nodup_heapify.mpr (h.kv.wf.nodup.filter _), fun n => ?_, rfl,
      fun _ => rfl, fun x => by simp, fun v => by simp, .refl, id⟩
    rw [H.mem_heapify]
    simp [MambaCand]
  obtain ⟨hinv, hend⟩ := evictMambaLoop_spec (H := H) (k := k) (c.nodes.length + 1) _ hstart (by
    have h₁ := (H.heapify_perm (c.nodes.filter fun n =>
      n.mambaValue.isSome && n.mambaRefCount = 0)).length_eq
    have h₂ := List.length_filter_le (fun n : RadixTreeNode =>
      n.mambaValue.isSome && n.mambaRefCount = 0) c.nodes
    simp only
    omega)
  obtain ⟨hc', hr'⟩ := Prod.mk.inj hr
  rw [hc', hr']
  refine ⟨⟨hinv.kvInv, hinv.mambaInv⟩, rfl, hinv.slots, hinv.snapshots, ?_,
    fun hz => hinv.kv_nil ?_, hinv.keeps, hinv.leaves⟩
  · rwa [hinv.freed] at hend
  · rw [hinv.freed]
    exact congrArg List.length hz

end HybridRadixCache

/-! ### Runs of the cache -/

/-- A cache and the nodes its outstanding locks were taken on. -/
structure HybridSys where
  cache : HybridRadixCache
  locks : List Path := []

/-- The calls of a client that locks nodes of handles and gives each lock back once. -/
inductive HybridStep : HybridSys → HybridSys → Prop
  | matchPrefix {c : HybridRadixCache} {locks : List Path} (ids : List Token) (tic : ℤ) :
      HybridStep ⟨c, locks⟩ ⟨(c.matchPrefix ids tic).1, locks⟩
  | insert {c : HybridRadixCache} {locks : List Path} (ids : List Token) (kv : List Slot)
      (mambaValue : ℕ) (tic now : ℤ) (hl : ids.length = kv.length) :
      HybridStep ⟨c, locks⟩ ⟨(c.insert ids kv mambaValue tic now).1, locks⟩
  | incLock {c : HybridRadixCache} {locks : List Path} (node : Path)
      (ha : IsAddress c.nodes node) (hs : SnapshotNode c.nodes node) :
      HybridStep ⟨c, locks⟩ ⟨c.incLock node, node :: locks⟩
  | decLock {c : HybridRadixCache} {locks : List Path} (node : Path) (hl : node ∈ locks) :
      HybridStep ⟨c, locks⟩ ⟨c.decLock node, locks.erase node⟩
  | evictFull {c : HybridRadixCache} {locks : List Path} (H : Heapq timestamp) (numTokens : ℕ) :
      HybridStep ⟨c, locks⟩ ⟨(c.evictFull H numTokens).1, locks⟩
  | evictMamba {c : HybridRadixCache} {locks : List Path} (H : Heapq timestamp) (num : ℕ) :
      HybridStep ⟨c, locks⟩ ⟨(c.evictMamba H num).1, locks⟩

inductive HybridRun (ps : ℕ) : HybridSys → Prop
  | start : HybridRun ps ⟨{ pageSize := ps }, []⟩
  | step {s s' : HybridSys} (h : HybridRun ps s) (hs : HybridStep s s') : HybridRun ps s'

variable {s s' : HybridSys}

/-- **Every step keeps the two currencies**, the snapshots of the locked nodes, and the leaves
alive. -/
theorem HybridStep.spec (hs : HybridStep s s') (h : s.cache.Inv s.locks) :
    s'.cache.Inv s'.locks ∧ s'.cache.pageSize = s.cache.pageSize ∧
      KeepsSnapshots s.locks s.cache.nodes s'.cache.nodes ∧
      (LeavesAlive hasNoSnapshot s.cache.nodes → LeavesAlive hasNoSnapshot s'.cache.nodes) := by
  cases hs with
  | @matchPrefix c locks ids tic =>
    obtain ⟨m, hm⟩ := HybridRadixCache.matchPrefix_spec h.kv.wf ids tic
    obtain ⟨hp, hf, hmb⟩ := hm.fields
    refine ⟨⟨?_, ?_⟩, hp, .reshape h.kv.wf hm.reshape, fun hla =>
      hla.reshape (fun _ _ => rfl) (fun _ _ => rfl) h.kv.wf hm.reshape⟩
    · simp only [hp, hf]
      exact hm.reshape.kvInv h.kv
    · simp only [hmb]
      exact h.mamba.reshape h.kv hm.reshape
  | @insert c locks ids kv v tic now hl =>
    obtain ⟨c', m, exist, heq, hp, hinv, -, -, -, -, -, -, hks, hla⟩ :=
      HybridRadixCache.insert_spec h hl v tic now
    simp only [heq]
    exact ⟨hinv, hp, hks, hla⟩
  | @incLock c locks node ha hsn =>
    obtain ⟨hinv, hsame, hp⟩ := HybridRadixCache.incLock_spec h ha hsn
    exact ⟨hinv, hp, .of_sameCore hsame, fun hla => hla.of_sameCore (fun _ => rfl) hsame⟩
  | @decLock c locks node hl =>
    obtain ⟨hinv, hsame, hp⟩ := HybridRadixCache.decLock_spec h hl
    exact ⟨hinv, hp, .of_sameCore hsame, fun hla => hla.of_sameCore (fun _ => rfl) hsame⟩
  | @evictFull c locks H k =>
    obtain ⟨rs, hrem, -, -, -, hinv, hp, -, hla⟩ :=
      HybridRadixCache.evictFull_spec h H k Prod.mk.eta
    exact ⟨hinv, hp, .removes h.kv hrem, hla⟩
  | @evictMamba c locks H k =>
    obtain ⟨hinv, hp, -, -, -, -, hks, hla⟩ := HybridRadixCache.evictMamba_spec h H k Prod.mk.eta
    exact ⟨hinv, hp, hks, hla⟩

/-- **The invariant of every run**, and no leaf is ever without a snapshot. -/
theorem HybridRun.spec (hps : 0 < ps) (h : HybridRun ps s) :
    s.cache.Inv s.locks ∧ s.cache.pageSize = ps ∧ LeavesAlive hasNoSnapshot s.cache.nodes := by
  induction h with
  | start => exact ⟨⟨kvInv_nil hps, mambaInv_nil⟩, rfl, .nil⟩
  | step _ hs ih =>
    obtain ⟨hinv, hp, hla⟩ := ih
    obtain ⟨hinv', hp', -, hla'⟩ := hs.spec hinv
    exact ⟨hinv', hp'.trans hp, hla' hla⟩

theorem HybridRadixCache.Inv.promise {c : HybridRadixCache} (h : c.Inv locks) :
    EvictionPromise hasNoSnapshot locks c.nodes c.full
      fun H size => some ((c.evictFull H size).1.nodes, (c.evictFull H size).2.kvIndices) where
  evictable := h.kv.evictable
  protectedSize := h.kv.protectedSize
  closed _ hn _ hm h0 hpre := h.kv.ref_zero_of_prefix hn hm h0 hpre
  delivers H size hsz := by
    obtain ⟨rs, hrem, hkv, hlru, hend, -⟩ := HybridRadixCache.evictFull_spec h H size Prod.mk.eta
    obtain ⟨hun, hmem, hanc, hlen⟩ := h.kv.promise_of_removes hrem
    refine ⟨_, _, rs, rfl, ?_, hkv, hkv ▸ hlru, hun, hmem, hanc⟩
    rw [hkv, hlen]
    exact hrem.delivered h.kv hsz hend

end FreeToken
