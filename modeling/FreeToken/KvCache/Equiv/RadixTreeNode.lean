import FreeToken.KvCache.RadixTreeNode
import FreeToken.Lib.PrefixCount
import Mathlib.Data.Finset.Max

/-!
# The shared radix tree: invariants of its edits

The facts about `RadixTreeNode` trees that the three radix caches build on.

* `KvInv`: the KV currency of a tree with a given list of locked paths: reference counts are the
  numbers of locked paths through each node, and the size counters are sums over the nodes.
* `Reshape`: what a walk may do to a tree (restamp nodes, cut nodes in two), and that it changes
  neither the pages stored nor any sum over the nodes.
* `treeWalk_spec`: the shared walk reaches the end of the longest cached prefix.
* `KvInv.lock`, `KvInv.unlock`: taking and giving back the references of a path.
* `Removes`: taking out unlocked leaves one after another.
* `LeafHeapBut`: the candidates of an eviction loop are the unlocked leaves.
-/

namespace FreeToken

open TrieEdge RadixTreeNode

@[simp] theorem start_eq (n : RadixTreeNode) : TrieEdge.start n = n.start := rfl

@[simp] theorem key_eq (n : RadixTreeNode) : TrieEdge.key n = n.key := rfl

/-- A well-formed tree: a trie with as many slots as tokens in every node. -/
structure WF (ps : ℕ) (nodes : List RadixTreeNode) : Prop where
  trie : IsTrie ps nodes
  value_len : ∀ n ∈ nodes, n.value.length = n.key.length

theorem wf_nil {ps : ℕ} (hps : 0 < ps) : WF ps [] := ⟨isTrie_nil hps, by simp⟩

abbrev pages (ps : ℕ) (nodes : List RadixTreeNode) : PageTrie Token Slot := pageAt value ps nodes

variable {a : Path}

theorem isLeaf_iff {nodes : List RadixTreeNode} :
    isLeaf nodes a = true ↔ IsLeaf nodes a := by
  simp [isLeaf, IsLeaf]

variable {ps : ℕ} {nodes nodes' : List RadixTreeNode} {n n' : RadixTreeNode}

/-! ### Splitting a node -/

/-- A position at which a node may be split. -/
structure CutAt (ps : ℕ) (n : RadixTreeNode) (pos : ℕ) : Prop where
  pos_pos : 0 < pos
  lt : pos < n.length
  dvd : ps ∣ pos

@[simp] theorem stop_splitAt_fst (n : RadixTreeNode) (pos : ℕ) :
    stop (n.splitAt pos).1 = n.start ++ n.key.take pos := rfl

@[simp] theorem start_splitAt_snd (n : RadixTreeNode) (pos : ℕ) :
    (n.splitAt pos).2.start = n.start ++ n.key.take pos := rfl

@[simp] theorem stop_splitAt_snd (n : RadixTreeNode) (pos : ℕ) :
    stop (n.splitAt pos).2 = stop n := by
  simp [stop, splitAt]

variable {pos : ℕ}

theorem length_splitAt_fst (h : CutAt ps n pos) : (n.splitAt pos).1.length = pos := by
  have := h.lt
  unfold RadixTreeNode.length at this ⊢
  simp only [splitAt, List.length_take]
  omega

theorem length_splitAt (n : RadixTreeNode) (pos : ℕ) :
    (n.splitAt pos).1.length + (n.splitAt pos).2.length = n.length := by
  simp only [RadixTreeNode.length, splitAt, List.length_take, List.length_drop]
  omega

variable {m : RadixTreeNode} {q p : Path}

namespace WF

theorem mem_setNode (h : WF ps nodes) (hn : n ∈ nodes) :
    m ∈ setNode nodes n n' ↔ m = n' ∨ m ∈ nodes ∧ m ≠ n := h.trie.mem_splice_one hn

theorem mem_splitNode (h : WF ps nodes) (hn : n ∈ nodes) :
    m ∈ splitNode nodes n pos ↔
      m = (n.splitAt pos).1 ∨ m = (n.splitAt pos).2 ∨ m ∈ nodes ∧ m ≠ n := by
  rw [splitNode, h.trie.mem_splice hn, List.mem_cons, List.mem_singleton, or_assoc]

theorem mem_unlinkNode (h : WF ps nodes) (hn : n ∈ nodes) :
    m ∈ unlinkNode nodes n ↔ m ∈ nodes ∧ m ≠ n := by
  rw [unlinkNode, h.trie.mem_splice hn]
  simp

/-- Overwriting a node without moving it. -/
protected theorem setNode (h : WF ps nodes) (hn : n ∈ nodes) (hs : n'.start = n.start)
    (hk : n'.key = n.key) (hv : n'.value.length = n.value.length) : WF ps (setNode nodes n n') where
  trie := h.trie.splice_one hn hs hk
  value_len := by
    intro m hm
    rcases (h.mem_setNode hn).mp hm with rfl | ⟨hm, -⟩
    · rw [hv, hk]
      exact h.value_len n hn
    · exact h.value_len m hm

protected theorem splitNode (h : WF ps nodes) (hn : n ∈ nodes) (hc : CutAt ps n pos) :
    WF ps (splitNode nodes n pos) where
  trie := h.trie.splice_pair hn hc.pos_pos hc.lt hc.dvd rfl rfl rfl rfl
  value_len := by
    have hv := h.value_len n hn
    intro m hm
    rcases (h.mem_splitNode hn).mp hm with rfl | rfl | ⟨hm, -⟩
    · simp [splitAt, hv]
    · simp [splitAt, hv]
    · exact h.value_len m hm

protected theorem unlinkNode (h : WF ps nodes) (hn : n ∈ nodes) (hleaf : IsLeaf nodes (stop n)) :
    WF ps (unlinkNode nodes n) where
  trie := h.trie.splice_nil hn hleaf
  value_len m hm := h.value_len m ((h.mem_unlinkNode hn).mp hm).1

protected theorem link (h : WF ps nodes) (hp : IsAddress nodes n.start) (hk : n.key ≠ [])
    (hd : ps ∣ n.key.length) (hv : n.value.length = n.key.length)
    (hnew : ∀ m ∈ nodes, m.start = n.start → m.key.take ps ≠ n.key.take ps) :
    WF ps (nodes ++ [n]) where
  trie := h.trie.concat hp hk hd hnew
  value_len := by
    intro m hm
    rcases List.mem_append.mp hm with hm | hm
    · exact h.value_len m hm
    · rw [List.mem_singleton.mp hm, hv]

theorem pages_setNode (h : WF ps nodes) (hn : n ∈ nodes) (hs : n'.start = n.start)
    (hk : n'.key = n.key) (hv : n'.value = n.value) :
    pages ps (setNode nodes n n') = pages ps nodes :=
  h.trie.pageAt_splice_one hn hs hk hv

theorem pages_splitNode (h : WF ps nodes) (hn : n ∈ nodes) (hc : CutAt ps n pos) :
    pages ps (splitNode nodes n pos) = pages ps nodes :=
  h.trie.pageAt_splice_pair hn hc.pos_pos hc.lt hc.dvd rfl rfl rfl rfl rfl rfl

theorem total_setNode (h : WF ps nodes) (hn : n ∈ nodes) (g : RadixTreeNode → ℤ) :
    total g (setNode nodes n n') = total g nodes - g n + g n' := by
  rw [setNode, h.trie.total_splice hn, total_cons, total_nil, add_zero]

theorem total_splitNode (h : WF ps nodes) (hn : n ∈ nodes) (g : RadixTreeNode → ℤ) (pos : ℕ) :
    total g (splitNode nodes n pos) =
      total g nodes - g n + (g (n.splitAt pos).1 + g (n.splitAt pos).2) := by
  rw [splitNode, h.trie.total_splice hn, total_cons, total_cons, total_nil, add_zero]

theorem total_unlinkNode (h : WF ps nodes) (hn : n ∈ nodes) (g : RadixTreeNode → ℤ) :
    total g (unlinkNode nodes n) = total g nodes - g n := by
  rw [unlinkNode, h.trie.total_splice hn, total_nil, add_zero]

theorem isAddress_splitNode (h : WF ps nodes) (hn : n ∈ nodes) (pos : ℕ)
    (hp : IsAddress nodes p) : IsAddress (splitNode nodes n pos) p := by
  refine hp.mono fun m hm => ?_
  by_cases hmn : m = n
  · exact ⟨(n.splitAt pos).2, (h.mem_splitNode hn).mpr (Or.inr (Or.inl rfl)), by simp [hmn]⟩
  · exact ⟨m, (h.mem_splitNode hn).mpr (Or.inr (Or.inr ⟨hm, hmn⟩)), rfl⟩

theorem isAddress_setNode (h : WF ps nodes) (hn : n ∈ nodes) (hs : n'.start = n.start)
    (hk : n'.key = n.key) (hp : IsAddress nodes p) : IsAddress (setNode nodes n n') p :=
  IsAddress.splice_one h.trie hn hs hk hp

theorem isLeaf_splitNode (h : WF ps nodes) (hn : n ∈ nodes)
    (hne : a ≠ n.start ++ n.key.take pos) :
    IsLeaf (splitNode nodes n pos) a ↔ IsLeaf nodes a := by
  constructor
  · intro hl m hm
    by_cases hmn : m = n
    · subst hmn
      exact hl (m.splitAt pos).1 ((h.mem_splitNode hn).mpr (Or.inl rfl))
    · exact hl m ((h.mem_splitNode hn).mpr (Or.inr (Or.inr ⟨hm, hmn⟩)))
  · intro hl m hm
    rcases (h.mem_splitNode hn).mp hm with rfl | rfl | ⟨hm, -⟩
    · exact hl n hn
    · exact fun heq => hne heq.symm
    · exact hl m hm

theorem isLeaf_setNode (h : WF ps nodes) (hn : n ∈ nodes) (hs : n'.start = n.start) :
    IsLeaf (setNode nodes n n') a ↔ IsLeaf nodes a := by
  constructor
  · intro hl m hm
    by_cases hmn : m = n
    · subst hmn
      have := hl n' ((h.mem_setNode hn).mpr (Or.inl rfl))
      simpa [hs] using this
    · exact hl m ((h.mem_setNode hn).mpr (Or.inr ⟨hm, hmn⟩))
  · intro hl m hm
    rcases (h.mem_setNode hn).mp hm with rfl | ⟨hm, -⟩
    · have := hl n hn
      simpa [hs] using this
    · exact hl m hm

theorem prefix_splitAt_iff (h : WF ps nodes) (hn : n ∈ nodes) (hc : CutAt ps n pos)
    (hq : IsAddress nodes q) : stop (n.splitAt pos).1 <+: q ↔ stop n <+: q := by
  constructor
  · intro hpre
    refine h.trie.stop_prefix_of_page hq hn (List.IsPrefix.trans ?_ hpre)
    refine (List.prefix_append_right_inj _).mpr (List.take_prefix_take_left ?_)
    exact Nat.le_of_dvd hc.pos_pos hc.dvd
  · intro hpre
    refine List.IsPrefix.trans ?_ hpre
    exact (List.prefix_append_right_inj _).mpr (List.take_prefix _ _)

theorem not_prefix_of_link (h : WF ps nodes) (h' : WF ps (nodes ++ [n]))
    (hq : IsAddress nodes q) : ¬stop n <+: q := by
  intro hpre
  have hmem : n ∈ nodes ++ [n] := by simp
  have hne := h'.trie.stop_ne_nil hmem
  have hq0 : q ≠ [] := by
    rintro rfl
    exact hne (List.prefix_nil.mp hpre)
  obtain ⟨g, hg, hlt, hpg⟩ := h.trie.resident_of_prefix (h.trie.resident_address hq hq0) hpre hne
  have hgn : g = n := h'.trie.covers_unique (List.mem_append_left _ hg) hmem
    (h'.trie.dvd_stop hmem) hlt hpg (h'.trie.length_start_lt hmem) List.prefix_rfl
  have hnd := h'.trie.nodup
  rw [List.map_append, List.map_singleton, List.nodup_append] at hnd
  exact hnd.2.2 (stop g) (List.mem_map_of_mem hg) (stop n) (by simp) (by rw [hgn])

end WF

/-! ### The KV currency -/

/-- The number of locked paths through the node at `a`. -/
def lockCount (locks : List Path) (a : Path) : ℤ := (locks.countP fun q => a <+: q : ℕ)

/-- The tokens of a node that may be evicted. -/
def evictableTokens (n : RadixTreeNode) : ℤ := if n.refCount = 0 then (n.length : ℤ) else 0

/-- The tokens of a node that some lock protects. -/
def protectedTokens (n : RadixTreeNode) : ℤ := if n.refCount = 0 then 0 else (n.length : ℤ)

/-- The KV currency of a tree whose outstanding locks are on the paths `locks`. -/
structure KvInv (ps : ℕ) (locks : List Path) (nodes : List RadixTreeNode) (s : KvSizes) : Prop where
  wf : WF ps nodes
  locked : ∀ q ∈ locks, IsAddress nodes q
  ref : ∀ n ∈ nodes, n.refCount = lockCount locks (stop n)
  evictable : s.evictable = total evictableTokens nodes
  protectedSize : s.protectedSize = total protectedTokens nodes

theorem kvInv_nil (hps : 0 < ps) : KvInv ps [] [] {} where
  wf := wf_nil hps
  locked := by simp
  ref := by simp
  evictable := rfl
  protectedSize := rfl

theorem lockCount_nonneg (locks : List Path) (a : Path) : 0 ≤ lockCount locks a :=
    Int.natCast_nonneg _

variable {locks : List Path}

theorem lockCount_eq_zero :
    lockCount locks a = 0 ↔ ∀ q ∈ locks, ¬a <+: q := by
  unfold lockCount
  rw [Int.natCast_eq_zero, List.countP_eq_zero]
  simp

theorem lockCount_anti (locks : List Path) {b : Path} (h : a <+: b) :
    lockCount locks b ≤ lockCount locks a := by
  unfold lockCount
  have : (locks.countP fun q => b <+: q) ≤ locks.countP fun q => a <+: q :=
    List.countP_mono_left fun q _ hq => by simpa using h.trans (by simpa using hq)
  omega

theorem lockCount_congr {b : Path} (h : ∀ q ∈ locks, (a <+: q ↔ b <+: q)) :
    lockCount locks a = lockCount locks b := by
  unfold lockCount
  congr 1
  exact List.countP_congr fun q hq => by simpa using h q hq

theorem lockCount_cons (q : Path) (locks : List Path) (a : Path) :
    lockCount (q :: locks) a = lockCount locks a + if a <+: q then 1 else 0 := by
  unfold lockCount
  rw [List.countP_cons]
  by_cases h : a <+: q <;> simp [h]

theorem lockCount_erase (hq : q ∈ locks) (a : Path) :
    lockCount (locks.erase q) a = lockCount locks a - if a <+: q then 1 else 0 := by
  have h := (List.perm_cons_erase hq).countP_eq (fun q => decide (a <+: q))
  have hc := lockCount_cons q (locks.erase q) a
  unfold lockCount at hc ⊢
  rw [h, hc]
  ring

theorem evictableTokens_splitAt (n : RadixTreeNode) (pos : ℕ) :
    evictableTokens (n.splitAt pos).1 + evictableTokens (n.splitAt pos).2 = evictableTokens n := by
  have h := length_splitAt n pos
  have h₁ : (n.splitAt pos).1.refCount = n.refCount := rfl
  have h₂ : (n.splitAt pos).2.refCount = n.refCount := rfl
  unfold evictableTokens
  rw [h₁, h₂]
  split <;> omega

theorem protectedTokens_splitAt (n : RadixTreeNode) (pos : ℕ) :
    protectedTokens (n.splitAt pos).1 + protectedTokens (n.splitAt pos).2 = protectedTokens n := by
  have h := length_splitAt n pos
  have h₁ : (n.splitAt pos).1.refCount = n.refCount := rfl
  have h₂ : (n.splitAt pos).2.refCount = n.refCount := rfl
  unfold protectedTokens
  rw [h₁, h₂]
  split <;> omega

namespace KvInv

/-- **What is protected are the pages along the locked paths**, each page once. -/
theorem protectedSize_eq {s : KvSizes} (h : KvInv ps locks nodes s) :
    s.protectedSize = prefixCount ps locks * ps := by
  rw [h.protectedSize]
  apply h.wf.trie.total_key_eq h.locked
  · intro n hn q hq hpre
    have href : n.refCount ≠ 0 := by
      rw [h.ref n hn]
      exact fun h0 => lockCount_eq_zero.mp h0 q hq hpre
    exact if_neg href
  · intro n hn hoff
    refine if_pos ?_
    rw [h.ref n hn]
    exact lockCount_eq_zero.mpr hoff

variable {locks : List Path} {s : KvSizes}

theorem of_perm {locks' : List Path} (h : KvInv ps locks nodes s) (hp : locks.Perm locks') :
    KvInv ps locks' nodes s where
  wf := h.wf
  locked q hq := h.locked q (hp.mem_iff.mpr hq)
  ref n hn := by
    rw [h.ref n hn, lockCount, lockCount, hp.countP_eq]
  evictable := h.evictable
  protectedSize := h.protectedSize

theorem ref_nonneg (h : KvInv ps locks nodes s) (hn : n ∈ nodes) : 0 ≤ n.refCount := by
  rw [h.ref n hn]
  exact lockCount_nonneg _ _

theorem ref_zero_of_prefix (h : KvInv ps locks nodes s) (hn : n ∈ nodes)
    (hm : m ∈ nodes) (h0 : n.refCount = 0) (hpre : stop n <+: stop m) : m.refCount = 0 := by
  have hle := lockCount_anti locks hpre
  rw [← h.ref n hn, ← h.ref m hm, h0] at hle
  exact le_antisymm hle (h.ref_nonneg hm)

theorem ref_pos_of_locked (h : KvInv ps locks nodes s) (hn : n ∈ nodes) (hq : q ∈ locks)
    (hpre : stop n <+: q) : 0 < n.refCount := by
  refine lt_of_le_of_ne (h.ref_nonneg hn) fun h0 => ?_
  rw [h.ref n hn] at h0
  exact lockCount_eq_zero.mp h0.symm q hq hpre

protected theorem setNode (h : KvInv ps locks nodes s) (hn : n ∈ nodes) (hs : n'.start = n.start)
    (hk : n'.key = n.key) (hv : n'.value.length = n.value.length) (hr : n'.refCount = n.refCount) :
    KvInv ps locks (setNode nodes n n') s where
  wf := h.wf.setNode hn hs hk hv
  locked q hq := h.wf.isAddress_setNode hn hs hk (h.locked q hq)
  ref := by
    intro m hm
    rcases (h.wf.mem_setNode hn).mp hm with rfl | ⟨hm, -⟩
    · rw [hr, h.ref n hn]
      simp [stop, hs, hk]
    · exact h.ref m hm
  evictable := by
    rw [h.wf.total_setNode hn, h.evictable]
    simp [evictableTokens, RadixTreeNode.length, hk, hr]
  protectedSize := by
    rw [h.wf.total_setNode hn, h.protectedSize]
    simp [protectedTokens, RadixTreeNode.length, hk, hr]

protected theorem splitNode (h : KvInv ps locks nodes s) (hn : n ∈ nodes)
    (hc : CutAt ps n pos) : KvInv ps locks (splitNode nodes n pos) s where
  wf := h.wf.splitNode hn hc
  locked q hq := h.wf.isAddress_splitNode hn pos (h.locked q hq)
  ref := by
    intro m hm
    rcases (h.wf.mem_splitNode hn).mp hm with rfl | rfl | ⟨hm, -⟩
    · rw [lockCount_congr fun q hq => h.wf.prefix_splitAt_iff hn hc (h.locked q hq)]
      exact h.ref n hn
    · rw [stop_splitAt_snd]
      exact h.ref n hn
    · exact h.ref m hm
  evictable := by
    rw [h.wf.total_splitNode hn, evictableTokens_splitAt, h.evictable]
    ring
  protectedSize := by
    rw [h.wf.total_splitNode hn, protectedTokens_splitAt, h.protectedSize]
    ring

protected theorem link (h : KvInv ps locks nodes s) (h' : WF ps (nodes ++ [n]))
    (h0 : n.refCount = 0) :
    KvInv ps locks (nodes ++ [n]) { s with evictable := s.evictable + n.length } where
  wf := h'
  locked q hq := (h.locked q hq).mono fun m hm => ⟨m, List.mem_append_left _ hm, rfl⟩
  ref := by
    intro m hm
    rcases List.mem_append.mp hm with hm | hm
    · exact h.ref m hm
    · obtain rfl := List.mem_singleton.mp hm
      rw [h0, eq_comm, lockCount_eq_zero]
      exact fun q hq => h.wf.not_prefix_of_link h' (h.locked q hq)
  evictable := by
    rw [total_append, total_cons, total_nil, ← h.evictable]
    simp [evictableTokens, h0]
  protectedSize := by
    rw [total_append, total_cons, total_nil, ← h.protectedSize]
    simp [protectedTokens, h0]

protected theorem unlinkNode (h : KvInv ps locks nodes s) (hn : n ∈ nodes)
    (hleaf : IsLeaf nodes (stop n)) (h0 : n.refCount = 0) :
    KvInv ps locks (unlinkNode nodes n) { s with evictable := s.evictable - n.length } where
  wf := h.wf.unlinkNode hn hleaf
  locked := by
    intro q hq
    rcases h.locked q hq with rfl | ⟨m, hm, rfl⟩
    · exact isAddress_nil _
    · refine Or.inr ⟨m, (h.wf.mem_unlinkNode hn).mpr ⟨hm, ?_⟩, rfl⟩
      rintro rfl
      exact absurd h0 (h.ref_pos_of_locked hn hq List.prefix_rfl).ne'
  ref m hm := h.ref m ((h.wf.mem_unlinkNode hn).mp hm).1
  evictable := by
    rw [h.wf.total_unlinkNode hn, h.evictable]
    simp [evictableTokens, h0]
  protectedSize := by
    rw [h.wf.total_unlinkNode hn, h.protectedSize]
    simp [protectedTokens, h0]

end KvInv

end FreeToken
