import FreeToken.KvCache.Equiv.RadixTreeWalk

/-!
# The shared radix tree: evicting leaves

* `Removes`: taking out unlocked leaves one after another; it keeps the KV currency, evicts the
  pages of the nodes taken and nothing else.
* `KvInv.exists_unlockedLeaf`: as long as a token is evictable there is an unlocked leaf.
* `LeafHeapBut`: during an eviction the heap holds the unlocked leaves.
* `cascade_spec`: a cascade removes dead unlocked leaves and stops at a node that is not one.
* `LruEvicts`: evicting a least recently used unlocked leaf at a time.
* `evictFullLoop_spec`: the loop of `evict_full` evicts in that order until it has freed enough
  or no unlocked leaf is left.
-/

namespace FreeToken

open List TrieEdge RadixTreeNode

variable {ps : ℕ} {nodes nodes' : List RadixTreeNode} {n : RadixTreeNode} {locks : List Path}

/-! ### Leaves -/

def TreeLeaf (nodes : List RadixTreeNode) (n : RadixTreeNode) : Prop :=
  n ∈ nodes ∧ IsLeaf nodes (stop n)

def UnlockedLeaf (nodes : List RadixTreeNode) (n : RadixTreeNode) : Prop :=
  TreeLeaf nodes n ∧ n.refCount = 0

theorem mem_evictableLeaves : n ∈ evictableLeaves nodes ↔ UnlockedLeaf nodes n := by
  simp only [evictableLeaves, UnlockedLeaf, TreeLeaf, mem_filter, Bool.and_eq_true,
    decide_eq_true_eq, isLeaf_iff]
  tauto

theorem treeLeaf_unlinkNode (h : WF ps nodes) (hn : n ∈ nodes) {m : RadixTreeNode} :
    TreeLeaf (unlinkNode nodes n) m ∧ stop m ≠ n.start ↔ TreeLeaf nodes m ∧ stop m ≠ stop n := by
  unfold TreeLeaf
  rw [h.mem_unlinkNode hn]
  constructor
  · rintro ⟨⟨⟨hm, hne⟩, hl⟩, hst⟩
    refine ⟨⟨hm, fun k hk => ?_⟩, fun heq => hne (h.trie.stop_inj hm hn heq)⟩
    by_cases hkn : k = n
    · rw [hkn]
      exact fun heq => hst heq.symm
    · exact hl k ((h.mem_unlinkNode hn).mpr ⟨hk, hkn⟩)
  · rintro ⟨⟨hm, hl⟩, hst⟩
    refine ⟨⟨⟨hm, fun heq => hst (heq ▸ rfl)⟩, fun k hk => ?_⟩, fun heq => hl n hn heq.symm⟩
    exact hl k ((h.mem_unlinkNode hn).mp hk).1

variable {s : KvSizes}

/-- **A locked-free subtree has an unlocked leaf**: below every unlocked node there is one. -/
theorem KvInv.exists_unlockedLeaf (h : KvInv ps locks nodes s) (hn : n ∈ nodes)
    (h0 : n.refCount = 0) : ∃ m, UnlockedLeaf nodes m ∧ stop n <+: stop m := by
  -- take a longest address among the nodes below `n`
  obtain ⟨m, hm, hmax⟩ := Finset.exists_max_image (nodes.toFinset.filter fun m => stop n <+: stop m)
    (fun m => (stop m).length) ⟨n, by simp [hn]⟩
  simp only [Finset.mem_filter, mem_toFinset] at hm hmax
  refine ⟨m, ⟨⟨hm.1, fun k hk hkm => ?_⟩, h.ref_zero_of_prefix hn hm.1 h0 hm.2⟩, hm.2⟩
  have hle := hmax k ⟨hk, hm.2.trans (hkm ▸ start_prefix_stop k)⟩
  have hlt := h.wf.trie.length_start_lt hk
  rw [hkm] at hlt
  omega

theorem KvInv.exists_unlockedLeaf_of_pos (h : KvInv ps locks nodes s)
    (hpos : 0 < s.evictable) : ∃ m, UnlockedLeaf nodes m := by
  by_contra hno
  have hz : ∀ n ∈ nodes, evictableTokens n = 0 := by
    intro n hn
    unfold evictableTokens
    by_cases h0 : n.refCount = 0
    · obtain ⟨m, hm, -⟩ := h.exists_unlockedLeaf hn h0
      exact absurd ⟨m, hm⟩ hno
    · rw [if_neg h0]
  have : total evictableTokens nodes = 0 := by
    rw [total_congr hz]
    simp [total]
  rw [h.evictable, this] at hpos
  exact absurd hpos (lt_irrefl 0)

/-! ### Removing unlocked leaves -/

/-- `rs` are taken out of the tree, each an unlocked leaf when it goes. -/
inductive Removes : List RadixTreeNode → List RadixTreeNode → List RadixTreeNode → Prop
  | nil (nodes : List RadixTreeNode) : Removes nodes [] nodes
  | cons {nodes rs nodes' : List RadixTreeNode} {n : RadixTreeNode} (hn : UnlockedLeaf nodes n)
      (h : Removes (unlinkNode nodes n) rs nodes') : Removes nodes (n :: rs) nodes'

def valuesOf (rs : List RadixTreeNode) : List Slot := rs.flatMap value

def tokensOf (rs : List RadixTreeNode) : ℕ := (rs.map RadixTreeNode.length).sum

@[simp] theorem valuesOf_nil : valuesOf [] = [] := rfl

@[simp] theorem valuesOf_cons (n : RadixTreeNode) (rs : List RadixTreeNode) :
    valuesOf (n :: rs) = n.value ++ valuesOf rs := rfl

@[simp] theorem valuesOf_append (rs rs' : List RadixTreeNode) :
    valuesOf (rs ++ rs') = valuesOf rs ++ valuesOf rs' := flatMap_append

@[simp] theorem tokensOf_nil : tokensOf [] = 0 := rfl

@[simp] theorem tokensOf_cons (n : RadixTreeNode) (rs : List RadixTreeNode) :
    tokensOf (n :: rs) = n.length + tokensOf rs := by simp [tokensOf]

@[simp] theorem tokensOf_append (rs rs' : List RadixTreeNode) :
    tokensOf (rs ++ rs') = tokensOf rs + tokensOf rs' := by simp [tokensOf]

theorem count_valuesOf (rs : List RadixTreeNode) (x : Slot) :
    ((valuesOf rs).count x : ℤ) = total (slotCount x) rs := by
  induction rs with
  | nil => rfl
  | cons n rs ih => rw [valuesOf_cons, count_append, total_cons, ← ih, slotCount]; push_cast; rfl

namespace Removes

variable {rs : List RadixTreeNode}

theorem trans {rs' nodes'' : List RadixTreeNode} (h : Removes nodes rs nodes')
    (h' : Removes nodes' rs' nodes'') : Removes nodes (rs ++ rs') nodes'' := by
  induction h with
  | nil => exact h'
  | cons hn _ ih => exact .cons hn (ih h')

theorem wf (hr : Removes nodes rs nodes') (h : WF ps nodes) : WF ps nodes' := by
  induction hr with
  | nil => exact h
  | cons hn _ ih => exact ih (h.unlinkNode hn.1.1 hn.1.2)

/-- The counters after a removal. -/
theorem kvInv (hr : Removes nodes rs nodes') (h : KvInv ps locks nodes s) :
    KvInv ps locks nodes' { s with evictable := s.evictable - tokensOf rs } := by
  induction hr generalizing s with
  | nil => simpa using h
  | cons hn _ ih =>
    have := ih (h.unlinkNode hn.1.1 hn.1.2 hn.2)
    rw [tokensOf_cons]
    push_cast
    rwa [← sub_sub]

theorem mem_iff (hr : Removes nodes rs nodes') (h : WF ps nodes) {m : RadixTreeNode} :
    m ∈ nodes' ↔ m ∈ nodes ∧ m ∉ rs := by
  induction hr with
  | nil => simp
  | cons hn _ ih =>
    rw [ih (h.unlinkNode hn.1.1 hn.1.2), h.mem_unlinkNode hn.1.1, mem_cons]
    tauto

theorem unlocked (hr : Removes nodes rs nodes') (h : WF ps nodes) {r : RadixTreeNode}
    (hmem : r ∈ rs) : r ∈ nodes ∧ r.refCount = 0 := by
  induction hr with
  | nil => simp at hmem
  | cons hn _ ih =>
    rcases mem_cons.mp hmem with rfl | hmem
    · exact ⟨hn.1.1, hn.2⟩
    · obtain ⟨h₁, h₂⟩ := ih (h.unlinkNode hn.1.1 hn.1.2) hmem
      exact ⟨((h.mem_unlinkNode hn.1.1).mp h₁).1, h₂⟩

theorem total_eq (hr : Removes nodes rs nodes') (h : WF ps nodes) (g : RadixTreeNode → ℤ) :
    total g nodes' = total g nodes - total g rs := by
  induction hr with
  | nil => simp
  | cons hn _ ih =>
    rw [ih (h.unlinkNode hn.1.1 hn.1.2), h.total_unlinkNode hn.1.1, total_cons]
    ring

/-- **Removing nodes evicts their pages**, each once. -/
theorem evicts (hr : Removes nodes rs nodes') (h : WF ps nodes) :
    (pages ps nodes).Evicts (pages ps nodes') (valuesOf rs) := by
  induction hr with
  | nil => exact PageTrie.evicts_refl _
  | cons hn _ ih =>
    exact (h.trie.evicts_splice_nil hn.1.1 hn.1.2 (h.value_len _ hn.1.1)).trans
      (ih (h.unlinkNode hn.1.1 hn.1.2))

theorem length_le (hr : Removes nodes rs nodes') (h : WF ps nodes) :
    nodes'.length + rs.length = nodes.length := by
  have hc := hr.total_eq h fun _ => 1
  have hlen : ∀ l : List RadixTreeNode, total (fun _ => 1) l = l.length := fun l => by
    simp [total]
  rw [hlen, hlen, hlen] at hc
  omega

end Removes

variable {rs : List RadixTreeNode}

theorem length_valuesOf
    (h : ∀ r ∈ rs, r.value.length = r.key.length) : (valuesOf rs).length = tokensOf rs := by
  induction rs with
  | nil => rfl
  | cons r rs ih =>
    rw [valuesOf_cons, length_append, tokensOf_cons, ih fun q hq => h q (by simp [hq]),
      h r (by simp), RadixTreeNode.length]

/-! ### The heap of an eviction -/

/-- The heap holds the unlocked leaves, apart from the node at address `a`. -/
structure LeafHeapBut (H : Heapq timestamp) (nodes heap : List RadixTreeNode) (a : Path) :
    Prop where
  isHeap : H.IsHeap heap
  nodup : heap.Nodup
  mem : ∀ n, n ∈ heap ↔ UnlockedLeaf nodes n ∧ stop n ≠ a

structure LeafHeap (H : Heapq timestamp) (nodes heap : List RadixTreeNode) : Prop where
  isHeap : H.IsHeap heap
  nodup : heap.Nodup
  mem : ∀ n, n ∈ heap ↔ UnlockedLeaf nodes n

variable {H : Heapq timestamp} {heap heap' : List RadixTreeNode}

theorem WF.nodup (h : WF ps nodes) : nodes.Nodup := List.Nodup.of_map _ h.trie.nodup

theorem leafHeap_heapify (h : WF ps nodes) :
    LeafHeap H nodes (H.heapify (evictableLeaves nodes)) where
  isHeap := H.isHeap_heapify _
  nodup := H.nodup_heapify.mpr (h.nodup.filter _)
  mem n := by rw [H.mem_heapify, mem_evictableLeaves]

/-- A pop takes an unlocked leaf with a least timestamp. -/
theorem LeafHeap.pop (hh : LeafHeap H nodes heap) (h : WF ps nodes)
    (hp : H.heappop heap = some (n, heap')) :
    UnlockedLeaf nodes n ∧ (∀ m, UnlockedLeaf nodes m → n.timestamp ≤ m.timestamp) ∧
      LeafHeapBut H nodes heap' (stop n) := by
  obtain ⟨hmem, hrest, hnd, hheap, hle⟩ := H.heappop_spec hh.isHeap hh.nodup hp
  have hn := (hh.mem n).mp hmem
  refine ⟨hn, fun m hm => hle m ((hh.mem m).mpr hm), hheap, hnd, fun m => ?_⟩
  rw [hrest, hh.mem]
  refine and_congr_right fun hm => not_congr ⟨fun heq => ?_, h.trie.stop_inj hm.1.1 hn.1.1⟩
  rw [heq]

theorem LeafHeapBut.unlinkNode (hh : LeafHeapBut H nodes heap (stop n)) (h : WF ps nodes)
    (hn : n ∈ nodes) : LeafHeapBut H (unlinkNode nodes n) heap n.start where
  isHeap := hh.isHeap
  nodup := hh.nodup
  mem m := by
    have := treeLeaf_unlinkNode h hn (m := m)
    rw [hh.mem]
    unfold UnlockedLeaf
    tauto

variable {a : Path}

theorem LeafHeapBut.pushParent (hh : LeafHeapBut H nodes heap a) (h : WF ps nodes)
    (ha : IsAddress nodes a) : LeafHeap H nodes (pushParent H nodes heap a) := by
  unfold FreeToken.pushParent
  rcases ha with rfl | ⟨p, hp, rfl⟩
  · rw [h.trie.edgeAt_nil]
    refine ⟨hh.isHeap, hh.nodup, fun m => ?_⟩
    rw [hh.mem]
    exact and_iff_left_of_imp fun hm => h.trie.stop_ne_nil hm.1.1
  · rw [h.trie.edgeAt_stop hp]
    have hex : ∀ m, m ∈ heap ↔ UnlockedLeaf nodes m ∧ m ≠ p := fun m => by
      rw [hh.mem]
      refine and_congr_right fun hm => not_congr ⟨h.trie.stop_inj hm.1.1 hp, fun heq => ?_⟩
      rw [heq]
    have hcond :
      (isLeaf nodes (stop p) && decide (p.refCount = 0)) = true ↔ UnlockedLeaf nodes p := by
      simp [isLeaf_iff, UnlockedLeaf, TreeLeaf, hp]
    simp only []
    split
    · next hl =>
      rw [hcond] at hl
      refine ⟨H.isHeap_heappush _ _ hh.isHeap, ?_, fun m => ?_⟩
      · rw [(H.heappush_perm heap p).nodup_iff, nodup_cons]
        exact ⟨fun hm => ((hex p).mp hm).2 rfl, hh.nodup⟩
      · rw [H.mem_heappush, hex]
        constructor
        · rintro (rfl | hm)
          · exact hl
          · exact hm.1
        · intro hm
          by_cases hmp : m = p
          · exact Or.inl hmp
          · exact Or.inr ⟨hm, hmp⟩
    · next hl =>
      rw [hcond] at hl
      refine ⟨hh.isHeap, hh.nodup, fun m => ?_⟩
      rw [hex]
      refine and_iff_left_of_imp fun hm => ?_
      rintro rfl
      exact hl hm

/-! ### Cascades -/

variable {dead : RadixTreeNode → Bool}

structure CascadeSpec (dead : RadixTreeNode → Bool) (nodes : List RadixTreeNode) (a : Path)
    (c : Cascade) (rs : List RadixTreeNode) : Prop where
  removes : Removes nodes rs c.nodes
  kv : c.kv = valuesOf rs
  freed : c.freed = tokensOf rs
  address : IsAddress c.nodes c.parent
  dead_of_mem : ∀ r ∈ rs, dead r = true
  /-- The surviving ancestor is not a dead unlocked leaf. -/
  stuck : ∀ p, UnlockedLeaf c.nodes p → stop p = c.parent → dead p = false
  /-- The other leaves are the ones that were there. -/
  leaf : ∀ m, TreeLeaf c.nodes m ∧ stop m ≠ c.parent ↔ TreeLeaf nodes m ∧ stop m ≠ a
  prefix_parent : c.parent <+: a

theorem cascadeLoop_spec :
    ∀ (fuel : ℕ) (nodes : List RadixTreeNode) (a : Path), WF ps nodes → IsAddress nodes a →
      a.length ≤ fuel → ∃ rs, CascadeSpec dead nodes a (cascadeLoop dead fuel nodes a) rs := by
  intro fuel
  have stop_here : ∀ (nodes : List RadixTreeNode) (a : Path), IsAddress nodes a →
      (∀ p, UnlockedLeaf nodes p → stop p = a → dead p = false) →
      CascadeSpec dead nodes a ⟨nodes, a, [], 0⟩ [] := fun nodes a ha hst =>
    ⟨.nil _, rfl, rfl, ha, by simp, hst, fun _ => Iff.rfl, prefix_rfl⟩
  induction fuel with
  | zero =>
    intro nodes a h ha hf
    obtain rfl : a = [] := length_eq_zero_iff.mp (by omega)
    exact ⟨[], stop_here nodes [] ha fun p hp hpa => absurd hpa (h.trie.stop_ne_nil hp.1.1)⟩
  | succ fuel ih =>
    intro nodes a h ha hf
    unfold cascadeLoop
    rcases ha with rfl | ⟨p, hp, rfl⟩
    · rw [h.trie.edgeAt_nil]
      exact ⟨[], stop_here nodes [] (isAddress_nil _)
        fun p hp hpa => absurd hpa (h.trie.stop_ne_nil hp.1.1)⟩
    · rw [h.trie.edgeAt_stop hp]
      -- the test of the loop: a dead unlocked leaf
      have hcond : (dead p && isLeaf nodes (stop p) && decide (p.refCount = 0)) = true ↔
          dead p = true ∧ UnlockedLeaf nodes p := by
        simp [isLeaf_iff, UnlockedLeaf, TreeLeaf, hp, and_assoc]
      simp only []
      split
      · next hc =>
        rw [hcond] at hc
        obtain ⟨hd, hu⟩ := hc
        have hl := hu.1.2
        have h' := h.unlinkNode hp hl
        have ha' : IsAddress (unlinkNode nodes p) p.start := by
          rcases h.trie.parent p hp with hs | ⟨q, hq, hqs⟩
          · exact Or.inl hs
          · refine Or.inr ⟨q, (h.mem_unlinkNode hp).mpr ⟨hq, ?_⟩, hqs⟩
            rintro rfl
            exact hl q hp hqs.symm
        have hlt := h.trie.length_start_lt hp
        rw [start_eq] at hlt
        obtain ⟨rs, hs⟩ := ih _ _ h' ha' (by omega)
        refine ⟨p :: rs, .cons hu hs.removes, ?_, ?_, hs.address, ?_, hs.stuck, fun m => ?_,
          hs.prefix_parent.trans (start_prefix_stop p)⟩
        · simp [hs.kv]
        · simp [hs.freed]
        · intro r hr
          rcases mem_cons.mp hr with rfl | hr
          · exact hd
          · exact hs.dead_of_mem r hr
        · rw [hs.leaf, treeLeaf_unlinkNode h hp]
      · next hc =>
        rw [hcond] at hc
        refine ⟨[], stop_here nodes (stop p) (isAddress_stop hp) fun q hq hqp => ?_⟩
        obtain rfl := h.trie.stop_inj hq.1.1 hp hqp
        by_contra hd
        exact hc ⟨by simpa using hd, hq⟩

/-- **A cascade** removes dead unlocked leaves upwards and stops below a node that is not one. -/
theorem cascade_spec (h : WF ps nodes) (ha : IsAddress nodes a) :
    ∃ rs, CascadeSpec dead nodes a (cascade dead nodes a) rs :=
  cascadeLoop_spec a.length nodes a h ha le_rfl

variable {c : Cascade}

theorem LeafHeapBut.cascade (hh : LeafHeapBut H nodes heap a) (hs : CascadeSpec dead nodes a c rs) :
    LeafHeapBut H c.nodes heap c.parent where
  isHeap := hh.isHeap
  nodup := hh.nodup
  mem m := by
    have := hs.leaf m
    rw [hh.mem]
    unfold UnlockedLeaf
    tauto

theorem isAddress_unlinkNode_start (h : WF ps nodes) (hn : TreeLeaf nodes n) :
    IsAddress (unlinkNode nodes n) n.start := by
  rcases h.trie.parent n hn.1 with hs | ⟨q, hq, hqs⟩
  · exact Or.inl hs
  · refine Or.inr ⟨q, (h.mem_unlinkNode hn.1).mpr ⟨hq, ?_⟩, hqs⟩
    rintro rfl
    exact hn.2 q hn.1 hqs.symm

/-! ### Dead leaves -/

def LeavesAlive (dead : RadixTreeNode → Bool) (nodes : List RadixTreeNode) : Prop :=
  ∀ n ∈ nodes, IsLeaf nodes (stop n) → dead n = false

namespace LeavesAlive

variable {n' : RadixTreeNode}

theorem nil : LeavesAlive dead [] := by simp [LeavesAlive]

protected theorem setNode (h : LeavesAlive dead nodes) (hw : WF ps nodes) (hn : n ∈ nodes)
    (hs : n'.start = n.start) (hk : n'.key = n.key) (hd : dead n' = true → dead n = true) :
    LeavesAlive dead (setNode nodes n n') := by
  intro m hm hleaf
  rw [hw.isLeaf_setNode hn hs] at hleaf
  rcases (hw.mem_setNode hn).mp hm with rfl | ⟨hm, -⟩
  · have halive := h n hn (by simpa [stop, hs, hk] using hleaf)
    by_contra hno
    rw [hd (by simpa using hno)] at halive
    exact absurd halive (by decide)
  · exact h m hm hleaf

theorem setNode_inner (h : LeavesAlive dead nodes) (hw : WF ps nodes) (hn : n ∈ nodes)
    (hs : n'.start = n.start) (hk : n'.key = n.key) (hin : ¬IsLeaf nodes (stop n)) :
    LeavesAlive dead (FreeToken.setNode nodes n n') := by
  intro m hm hleaf
  rw [hw.isLeaf_setNode hn hs] at hleaf
  rcases (hw.mem_setNode hn).mp hm with rfl | ⟨hm, -⟩
  · exact absurd (by simpa [stop, hs, hk] using hleaf) hin
  · exact h m hm hleaf

protected theorem splitNode (h : LeavesAlive dead nodes) (hw : WF ps nodes) (hn : n ∈ nodes)
    {pos : ℕ} (hc : CutAt ps n pos) (hd : dead (n.splitAt pos).2 = dead n) :
    LeavesAlive dead (splitNode nodes n pos) := by
  have hw' := hw.splitNode hn hc
  have hup : (n.splitAt pos).1 ∈ splitNode nodes n pos := (hw.mem_splitNode hn).mpr (Or.inl rfl)
  have hlow : (n.splitAt pos).2 ∈ splitNode nodes n pos :=
    (hw.mem_splitNode hn).mpr (Or.inr (Or.inl rfl))
  intro m hm hleaf
  by_cases hmu : m = (n.splitAt pos).1
  · -- the lower part hangs below the upper one
    subst hmu
    exact absurd rfl (hleaf _ hlow)
  · have hne : stop m ≠ n.start ++ n.key.take pos := fun heq => hmu (hw'.trie.stop_inj hm hup heq)
    rw [hw.isLeaf_splitNode hn hne] at hleaf
    rcases (hw.mem_splitNode hn).mp hm with rfl | rfl | ⟨hm, -⟩
    · exact absurd rfl hmu
    · rw [hd]
      exact h n hn (by simpa using hleaf)
    · exact h m hm hleaf

theorem reshape (h : LeavesAlive dead nodes)
    (hstamp : ∀ n t, dead { n with timestamp := t } = dead n)
    (hsplit : ∀ n pos, dead (n.splitAt pos).2 = dead n) (hw : WF ps nodes)
    (hr : Reshape ps nodes nodes') : LeavesAlive dead nodes' := by
  induction hr with
  | refl => exact h
  | tail hr hs ih =>
    cases hs with
    | stamp hn t =>
      exact ih.setNode (Reshape.wf hr hw) hn (by rfl) (by rfl) fun hd => (hstamp _ t).symm.trans hd
    | split hn hc => exact ih.splitNode (Reshape.wf hr hw) hn hc (hsplit _ _)

theorem link_dead (h : LeavesAlive dead nodes) :
    ∀ m ∈ nodes ++ [n], IsLeaf (nodes ++ [n]) (stop m) → stop m ≠ stop n → dead m = false := by
  intro m hm hleaf hne
  rcases mem_append.mp hm with hm | hm
  · exact h m hm fun k hk => hleaf k (mem_append_left _ hk)
  · exact absurd (by rw [mem_singleton.mp hm]) hne

theorem link_alive (h : ∀ m ∈ nodes, IsLeaf nodes (stop m) → stop m ≠ n.start → dead m = false)
    (hn : dead n = false) : LeavesAlive dead (nodes ++ [n]) := by
  intro m hm hleaf
  rcases mem_append.mp hm with hm | hm
  · exact h m hm (fun k hk => hleaf k (mem_append_left _ hk)) fun heq => hleaf n (by simp) heq.symm
  · rwa [mem_singleton.mp hm]

theorem of_sameCore (h : LeavesAlive dead nodes) (hd : ∀ n, dead (core n) = dead n)
    (hs : SameCore nodes nodes') : LeavesAlive dead nodes' := by
  intro m hm hleaf
  obtain ⟨k, hk, hkm⟩ := hs.exists_mem hm
  rw [← hd, ← hkm, hd]
  exact h k hk (by rw [stop_of_core hkm]; exact hs.isLeaf_iff.mp hleaf)

/-- **The cascade leaves no dead leaf behind**, locked leaves apart. -/
theorem cascade (h : LeavesAlive dead nodes) (hw : WF ps nodes) (hn : TreeLeaf nodes n)
    (hs : CascadeSpec dead (unlinkNode nodes n) n.start c rs)
    (hlocked : ∀ m, TreeLeaf c.nodes m → m.refCount ≠ 0 → dead m = false) :
    LeavesAlive dead c.nodes := by
  intro m hm hleaf
  by_cases hmp : stop m = c.parent
  · by_cases h0 : m.refCount = 0
    · exact hs.stuck m ⟨⟨hm, hleaf⟩, h0⟩ hmp
    · exact hlocked m ⟨hm, hleaf⟩ h0
  · have hold := (treeLeaf_unlinkNode hw hn.1).mp ((hs.leaf m).mp ⟨⟨hm, hleaf⟩, hmp⟩)
    exact h m hold.1.1 hold.1.2

end LeavesAlive

theorem KvInv.mem_locks_of_leaf (h : KvInv ps locks nodes s) (hn : TreeLeaf nodes n)
    (h0 : n.refCount ≠ 0) : stop n ∈ locks := by
  rw [h.ref n hn.1, Ne, lockCount_eq_zero] at h0
  push Not at h0
  obtain ⟨q, hq, hpre⟩ := h0
  rwa [← h.wf.trie.eq_of_leaf_prefix hn.1 hn.2 (h.locked _ hq) hpre]

/-! ### Evicting the least recently used leaf at a time -/

/-- `kv` is evicted by taking, again and again, an unlocked leaf with a least timestamp and the
dead leaves this exposes. -/
inductive LruEvicts (dead : RadixTreeNode → Bool) :
    List RadixTreeNode → List Slot → List RadixTreeNode → Prop
  | done (nodes : List RadixTreeNode) : LruEvicts dead nodes [] nodes
  | pick {nodes nodes' : List RadixTreeNode} {n : RadixTreeNode} {kv : List Slot}
      (hn : UnlockedLeaf nodes n)
      (hmin : ∀ m, UnlockedLeaf nodes m → n.timestamp ≤ m.timestamp)
      (h : LruEvicts dead (FreeToken.cascade dead (unlinkNode nodes n) n.start).nodes kv nodes') :
      LruEvicts dead nodes
        (n.value ++ (FreeToken.cascade dead (unlinkNode nodes n) n.start).kv ++ kv) nodes'

theorem LruEvicts.trans {kv kv' : List Slot} {nodes'' : List RadixTreeNode}
    (h : LruEvicts dead nodes kv nodes') (h' : LruEvicts dead nodes' kv' nodes'') :
    LruEvicts dead nodes (kv ++ kv') nodes'' := by
  induction h with
  | done => exact h'
  | pick hn hmin _ ih =>
    rw [append_assoc]
    exact .pick hn hmin (ih h')

section EvictFull

variable {κ : Type*} {take : κ → RadixTreeNode → κ}

/-- What the loop of `evict_full` has done when it has come from `s₀` to `s`. -/
structure EvictFullSpec (H : Heapq timestamp) (dead : RadixTreeNode → Bool) (s₀ s : EvictState κ)
    (rs : List RadixTreeNode) : Prop where
  removes : Removes s₀.nodes rs s.nodes
  lru : ∃ kv, s.kv = s₀.kv ++ kv ∧ LruEvicts dead s₀.nodes kv s.nodes
  kv : s.kv = s₀.kv ++ valuesOf rs
  freed : s.freed = s₀.freed + tokensOf rs
  fullEvictable : s.fullEvictable = s₀.fullEvictable - tokensOf rs
  heap : LeafHeap H s.nodes s.heap

/-- One round of the loop. -/
theorem evictNode_spec {s : EvictState κ} (h : WF ps s.nodes) (hh : LeafHeap H s.nodes s.heap)
    (hp : H.heappop s.heap = some (n, heap')) :
    ∃ rs, CascadeSpec dead (unlinkNode s.nodes n) n.start
        (cascade dead (unlinkNode s.nodes n) n.start) rs ∧
      EvictFullSpec H dead s (evictNode H dead take s n heap') (n :: rs) := by
  obtain ⟨hn, hmin, hbut⟩ := hh.pop h hp
  have h' := h.unlinkNode hn.1.1 hn.1.2
  obtain ⟨rs, hs⟩ := cascade_spec h' (isAddress_unlinkNode_start h hn.1)
  refine ⟨rs, hs, .cons hn hs.removes, ⟨_, ?_, .pick hn hmin (.done _)⟩, ?_, ?_, ?_, ?_⟩
  · simp [evictNode]
  · simp [evictNode, hs.kv]
  · simp [evictNode, hs.freed, add_assoc]
  · simp only [evictNode, hs.freed, tokensOf_cons]
    push_cast
    ring
  · exact ((hbut.unlinkNode h hn.1.1).cascade hs).pushParent (hs.removes.wf h') hs.address

variable (dead take) in
/-- **The loop of `evict_full`** frees least recently used unlocked leaves until it has enough or
none is left.  A property of the loop state that each round keeps holds at the end. -/
theorem evictFullLoop_spec (numTokens : ℕ) {M : EvictState κ → Prop}
    (hround : ∀ s n heap', WF ps s.nodes → LeafHeap H s.nodes s.heap →
      H.heappop s.heap = some (n, heap') → M s → M (evictNode H dead take s n heap')) :
    ∀ (fuel : ℕ) (s : EvictState κ), WF ps s.nodes → LeafHeap H s.nodes s.heap →
      s.nodes.length < fuel → M s →
      ∃ rs, EvictFullSpec H dead s (evictFullLoop H dead take numTokens fuel s) rs ∧
        M (evictFullLoop H dead take numTokens fuel s) ∧
        (numTokens ≤ (evictFullLoop H dead take numTokens fuel s).freed ∨
          ∀ m, ¬UnlockedLeaf (evictFullLoop H dead take numTokens fuel s).nodes m) := by
  intro fuel
  induction fuel with
  | zero => intro s _ _ hf; omega
  | succ fuel ih =>
    intro s h hh hf hM
    have hrefl : EvictFullSpec H dead s s [] :=
      ⟨.nil _, ⟨[], by simp, .done _⟩, by simp, by simp, by simp, hh⟩
    unfold evictFullLoop
    by_cases hlt : s.freed < numTokens
    · rw [if_pos hlt]
      cases hp : H.heappop s.heap with
      | none =>
        refine ⟨[], hrefl, hM, Or.inr fun m hm => ?_⟩
        have := (hh.mem m).mpr hm
        rw [(H.heappop_eq_none _).mp hp] at this
        simp at this
      | some np =>
        obtain ⟨n, heap'⟩ := np
        obtain ⟨hn, -, -⟩ := hh.pop h hp
        obtain ⟨rs, hs⟩ : ∃ rs, EvictFullSpec H dead s (evictNode H dead take s n heap')
          (n :: rs) :=
          (evictNode_spec h hh hp).imp fun _ hs => hs.2
        -- the heap holds unlocked leaves only, so the guard of the loop passes
        have hcond : (n.refCount ≠ 0 || !isLeaf s.nodes (stop n)) = false := by
          simp [hn.2, isLeaf_iff.mpr hn.1.2]
        simp only [hcond, Bool.false_eq_true, if_false]
        have hlen := hs.removes.length_le h
        rw [length_cons] at hlen
        obtain ⟨rs', hs', hM', hend⟩ := ih (evictNode H dead take s n heap') (hs.removes.wf h)
          hs.heap (by omega) (hround s n heap' h hh hp hM)
        refine ⟨n :: rs ++ rs', ⟨hs.removes.trans hs'.removes, ?_, ?_, ?_, ?_, hs'.heap⟩, hM', hend⟩
        · obtain ⟨kv, hkv, hlru⟩ := hs.lru
          obtain ⟨kv', hkv', hlru'⟩ := hs'.lru
          exact ⟨kv ++ kv', by rw [hkv', hkv, append_assoc], hlru.trans hlru'⟩
        · rw [hs'.kv, hs.kv, valuesOf_append, append_assoc]
        · rw [hs'.freed, hs.freed, tokensOf_append]
          omega
        · rw [hs'.fullEvictable, hs.fullEvictable, tokensOf_append]
          push_cast
          ring
    · rw [if_neg hlt]
      exact ⟨[], hrefl, hM, Or.inl (not_lt.mp hlt)⟩

end EvictFull

end FreeToken
