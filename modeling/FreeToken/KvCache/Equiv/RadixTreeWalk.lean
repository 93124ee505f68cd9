import FreeToken.KvCache.Equiv.RadixTreeNode

/-!
# The shared radix tree: walking and locking

* `Reshape`: what a walk may do to a tree, namely restamp nodes and cut nodes in two.
* `Reshape.pages_eq`, `Reshape.total_eq`, `Reshape.kvInv`: it changes neither the pages stored nor
  any sum over the tokens of the nodes, and keeps the KV currency.
* `treeWalk_spec`: the shared walk ends at the longest cached prefix of the query.
* `getMatchedIndices_eq_lookup`: the indices of a node are the pages stored along its path.
* `KvInv.lock`, `KvInv.unlock`: taking and giving back the references of a path.
-/

namespace FreeToken

open TrieEdge RadixTreeNode

variable {ps : ℕ} {nodes nodes' : List RadixTreeNode} {n n' : RadixTreeNode}

/-! ### Reshaping -/

/-- One step of a walk: restamp a node, or cut a node in two at a page boundary. -/
inductive ReshapeStep (ps : ℕ) : List RadixTreeNode → List RadixTreeNode → Prop
  | stamp {nodes : List RadixTreeNode} {n : RadixTreeNode} (hn : n ∈ nodes) (t : ℤ) :
      ReshapeStep ps nodes (setNode nodes n { n with timestamp := t })
  | split {nodes : List RadixTreeNode} {n : RadixTreeNode} (hn : n ∈ nodes) {pos : ℕ}
      (hc : CutAt ps n pos) : ReshapeStep ps nodes (splitNode nodes n pos)

abbrev Reshape (ps : ℕ) : List RadixTreeNode → List RadixTreeNode → Prop :=
  Relation.ReflTransGen (ReshapeStep ps)

/-- A weight of nodes that a split divides between the parts and that stamps do not enter. -/
structure Splits (ps : ℕ) (g : RadixTreeNode → ℤ) : Prop where
  stamp : ∀ n t, g { n with timestamp := t } = g n
  split : ∀ n pos, CutAt ps n pos → g (n.splitAt pos).1 + g (n.splitAt pos).2 = g n

/-- The number of times a slot occurs among the values. -/
def slotCount (s : Slot) (n : RadixTreeNode) : ℤ := (n.value.count s : ℕ)

theorem splits_slotCount (s : Slot) : Splits ps (slotCount s) where
  stamp _ _ := rfl
  split n pos _ := by
    simp only [slotCount, splitAt]
    rw [← Nat.cast_add, ← List.count_append, List.take_append_drop]

variable {g : RadixTreeNode → ℤ} {locks : List Path} {p : Path} {s : KvSizes}

namespace ReshapeStep

theorem wf (hr : ReshapeStep ps nodes nodes') (h : WF ps nodes) : WF ps nodes' := by
  cases hr with
  | stamp hn t => exact h.setNode hn rfl rfl rfl
  | split hn hc => exact h.splitNode hn hc

theorem pages_eq (hr : ReshapeStep ps nodes nodes') (h : WF ps nodes) :
    pages ps nodes' = pages ps nodes := by
  cases hr with
  | stamp hn t => exact h.pages_setNode hn rfl rfl rfl
  | split hn hc => exact h.pages_splitNode hn hc

theorem isAddress (hr : ReshapeStep ps nodes nodes') (h : WF ps nodes)
    (hp : IsAddress nodes p) : IsAddress nodes' p := by
  cases hr with
  | stamp hn t => exact h.isAddress_setNode hn (by rfl) (by rfl) hp
  | split hn hc => exact h.isAddress_splitNode hn _ hp

theorem total_eq (hr : ReshapeStep ps nodes nodes') (h : WF ps nodes)
    (hg : Splits ps g) : total g nodes' = total g nodes := by
  cases hr with
  | @stamp n hn t => rw [h.total_setNode hn, hg.stamp n t]; ring
  | split hn hc => rw [h.total_splitNode hn, hg.split _ _ hc]; ring

theorem kvInv (hr : ReshapeStep ps nodes nodes')
    (h : KvInv ps locks nodes s) : KvInv ps locks nodes' s := by
  cases hr with
  | stamp hn t => exact h.setNode hn rfl rfl rfl rfl
  | split hn hc => exact h.splitNode hn hc

end ReshapeStep

variable {ids : List Token}

namespace Reshape

theorem wf (hr : Reshape ps nodes nodes') (h : WF ps nodes) : WF ps nodes' := by
  induction hr with
  | refl => exact h
  | tail _ hs ih => exact hs.wf ih

theorem pages_eq (hr : Reshape ps nodes nodes') (h : WF ps nodes) :
    pages ps nodes' = pages ps nodes := by
  induction hr with
  | refl => rfl
  | tail hr hs ih => rw [hs.pages_eq (wf hr h), ih]

theorem isAddress (hr : Reshape ps nodes nodes') (h : WF ps nodes)
    (hp : IsAddress nodes p) : IsAddress nodes' p := by
  induction hr with
  | refl => exact hp
  | tail hr hs ih => exact hs.isAddress (wf hr h) ih

/-- Sums over the tokens of the nodes survive a walk. -/
theorem total_eq (hr : Reshape ps nodes nodes') (h : WF ps nodes)
    (hg : Splits ps g) : total g nodes' = total g nodes := by
  induction hr with
  | refl => rfl
  | tail hr hs ih => rw [hs.total_eq (wf hr h) hg, ih]

theorem kvInv (hr : Reshape ps nodes nodes')
    (h : KvInv ps locks nodes s) : KvInv ps locks nodes' s := by
  induction hr with
  | refl => exact h
  | tail _ hs ih => exact hs.kvInv ih

theorem resident_iff (hr : Reshape ps nodes nodes') (h : WF ps nodes)
    (hp : ps ∣ p.length) : Resident nodes' p ↔ Resident nodes p := by
  have hiff : ∀ l : List RadixTreeNode, (pages ps l).Contains p ↔ Resident l p := fun l => by
    unfold pages
    rw [pageAt_contains_iff]
    exact and_iff_right hp
  rw [← hiff, ← hiff, hr.pages_eq h]

theorem isLongest_iff (hr : Reshape ps nodes nodes') (h : WF ps nodes) {m : ℕ} :
    IsLongest ps (Resident nodes') ids m ↔ IsLongest ps (Resident nodes) ids m := by
  have hres : ∀ k, ps ∣ k → k ≤ ids.length →
      (Resident nodes' (ids.take k) ↔ Resident nodes (ids.take k)) := fun k hk hle =>
    hr.resident_iff h (by rwa [List.length_take, Nat.min_eq_left hle])
  exact ⟨fun hl => hl.congr fun k hk hle => (hres k hk hle).symm, fun hl => hl.congr hres⟩

end Reshape

/-! ### The shared walk -/

theorem cutAt_of_partial (h : WF ps nodes) (hn : n ∈ nodes) {m : ℕ}
    (hpage : n.key.take ps = ids.take ps) (hm : m = alignDown (n.getMatchLen ids) ps)
    (hne : m ≠ n.length) : CutAt ps n m := by
  have hspec := h.trie.matchLen_spec (n := 0) hn (by simpa using hpage)
    (by simpa [getMatchLen] using hm)
  obtain ⟨hpm, hd, hle, -, -⟩ := hspec
  have hps := h.trie.page_pos
  refine ⟨by omega, ?_, hd⟩
  exact lt_of_le_of_ne hle hne

/-- The step of a walk that enters a child: it ends inside the child, which is then cut at the end
of the longest covered prefix, or it follows the child to its end. -/
theorem walk_enter (h : WF ps nodes) {k : ℕ} (hk : k ≤ ids.length)
    {child : RadixTreeNode} (hc : childAt ps nodes (ids.take k) (ids.drop k) = some child) :
    child ∈ nodes ∧ child.start = ids.take k ∧ ∃ m,
      m = alignDown (child.getMatchLen (ids.drop k)) ps ∧ 0 < m ∧ k + m ≤ ids.length ∧
      (m < child.length ∧ CutAt ps child m ∧ stop (child.splitAt m).1 = ids.take (k + m) ∧
          IsLongest ps (Resident nodes) ids (k + m) ∨
        m = child.length ∧ stop child = ids.take (k + m)) := by
  obtain ⟨hmem, hs, hpage⟩ := childAt_eq_some hc
  obtain ⟨m, hm⟩ : ∃ m, m = alignDown (child.getMatchLen (ids.drop k)) ps := ⟨_, rfl⟩
  obtain ⟨hpm, hdm, hle, hkm, htake⟩ := h.trie.matchLen_spec hmem hpage hm
  rw [Nat.max_eq_right hk] at hkm
  have hps := h.trie.page_pos
  have hpre : child.start ++ child.key.take m = ids.take (k + m) := start_append_take hs htake
  refine ⟨hmem, hs, m, hm, by omega, hkm, ?_⟩
  by_cases hfull : m = child.length
  · refine Or.inr ⟨hfull, ?_⟩
    rw [← hpre, hfull, RadixTreeNode.length, List.take_length]
    rfl
  · have hcut : CutAt ps child m := cutAt_of_partial h hmem hpage hm hfull
    exact Or.inl ⟨hcut.lt, hcut, by rw [stop_splitAt_fst, hpre],
      h.trie.isLongest_of_partial hk hmem hs hpage hm hcut.lt⟩

theorem treeWalkLoop_spec (tic : ℤ) :
    ∀ (fuel : ℕ) (nodes : List RadixTreeNode) (k : ℕ), WF ps nodes → k ≤ ids.length →
      ids.length ≤ k + fuel → IsAddress nodes (ids.take k) →
      ∃ nodes' m, treeWalkLoop ps ids tic fuel nodes (ids.take k) k = (nodes', ids.take m, m) ∧
        Reshape ps nodes nodes' ∧ IsAddress nodes' (ids.take m) ∧
        IsLongest ps (Resident nodes) ids m := by
  intro fuel
  induction fuel with
  | zero =>
    intro nodes k h hk hf hp
    obtain rfl : k = ids.length := by omega
    refine ⟨nodes, ids.length, rfl, .refl, hp, ?_⟩
    rw [List.take_length] at hp
    exact h.trie.isLongest_of_exhausted hp
  | succ fuel ih =>
    intro nodes k h hk hf hp
    unfold treeWalkLoop
    by_cases hlt : k < ids.length
    · rw [if_pos hlt]
      cases hc : childAt ps nodes (ids.take k) (ids.drop k) with
      | none => exact ⟨nodes, k, rfl, .refl, hp, h.trie.isLongest_of_childAt_none hk hp hc⟩
      | some child =>
        obtain ⟨hmem, -, m, hm, hm0, hkm, hcase⟩ := walk_enter h hk hc
        simp only [← hm]
        rcases hcase with ⟨hlt', hcut, hstop, hlong⟩ | ⟨hfull, hstop⟩
        · -- the query leaves the child in the middle: cut it there
          rw [if_pos hlt'.ne]
          have hr : ReshapeStep ps nodes (splitNode nodes child m) := .split hmem hcut
          have hup : (child.splitAt m).1 ∈ splitNode nodes child m :=
            (h.mem_splitNode hmem).mpr (Or.inl rfl)
          refine ⟨_, k + m, by rw [hstop], .head hr (.single (.stamp hup tic)), ?_, hlong⟩
          rw [← hstop]
          exact (hr.wf h).isAddress_setNode hup (by rfl) (by rfl) (isAddress_stop hup)
        · -- the whole child is matched: go on below it
          rw [if_neg (not_not.mpr hfull)]
          have hr : ReshapeStep ps nodes (setNode nodes child { child with timestamp := tic }) :=
            .stamp hmem tic
          obtain ⟨nodes', m', heq, hr', hp', hl'⟩ := ih _ (k + m) (hr.wf h) hkm (by omega)
            (hstop ▸ h.isAddress_setNode hmem (by rfl) (by rfl) (isAddress_stop hmem))
          rw [← hstop] at heq
          exact ⟨nodes', m', heq, .head hr hr', hp', (Reshape.isLongest_iff (.single hr) h).mp hl'⟩
    · rw [if_neg hlt]
      obtain rfl : k = ids.length := by omega
      refine ⟨nodes, ids.length, rfl, .refl, hp, ?_⟩
      rw [List.take_length] at hp
      exact h.trie.isLongest_of_exhausted hp

/-- **The shared walk** reaches the end of the longest cached prefix of the query, and only
restamps and cuts nodes on the way. -/
theorem treeWalk_spec (h : WF ps nodes) (ids : List Token) (tic : ℤ) :
    ∃ nodes' m, treeWalk ps nodes ids tic = (nodes', ids.take m, m) ∧ Reshape ps nodes nodes' ∧
      IsAddress nodes' (ids.take m) ∧ IsLongest ps (Resident nodes) ids m :=
  treeWalkLoop_spec tic ids.length nodes 0 h (Nat.zero_le _) (by omega) (isAddress_nil _)

/-! ### The indices of a node -/

theorem lookup_append_key (h : WF ps nodes) (hn : n ∈ nodes) :
    (pages ps nodes).lookup ps (stop n) (stop n).length =
      (pages ps nodes).lookup ps n.start n.start.length ++ n.value := by
  have hps := h.trie.page_pos
  obtain ⟨a, ha⟩ := h.trie.dvd_start hn
  obtain ⟨b, hb⟩ := h.trie.dvd_key n hn
  rw [start_eq] at ha
  rw [key_eq] at hb
  have hlen : (stop n).length = ps * (a + b) := by
    rw [length_stop, start_eq, key_eq, ha, hb, Nat.mul_add]
  have hv := h.trie.flatMap_pagePaths hn (h.value_len n hn)
  rw [pagePaths, start_eq, key_eq, hb, Nat.mul_div_cancel_left b hps, List.flatMap_map] at hv
  unfold PageTrie.lookup
  rw [hlen, ha, Nat.mul_div_cancel_left _ hps, Nat.mul_div_cancel_left _ hps, List.range_add,
    List.flatMap_append, List.flatMap_map, ← hv]
  have hst : stop n = n.start ++ n.key := rfl
  congr 1
  · refine List.flatMap_congr fun j hj => ?_
    have hle : (j + 1) * ps ≤ n.start.length := by
      rw [ha, Nat.mul_comm ps a]
      exact Nat.mul_le_mul_right ps (List.mem_range.mp hj)
    rw [hst, List.take_append_of_le_length hle]
  · refine List.flatMap_congr fun j _ => ?_
    have hadd : (a + j + 1) * ps = n.start.length + (j + 1) * ps := by
      rw [ha]
      ring
    rw [hst, hadd, List.take_append, List.take_of_length_le (by omega)]
    simp

variable {a : Path}

theorem getMatchedIndices_eq_lookup (h : WF ps nodes) (ha : IsAddress nodes a) :
    getMatchedIndices nodes a = (pages ps nodes).lookup ps a a.length := by
  induction ha using h.trie.address_induct with
  | root => simp [getMatchedIndices, IsTrie.ancestors_nil, PageTrie.lookup]
  | edge n hn ih =>
    unfold getMatchedIndices at ih ⊢
    rw [h.trie.ancestors_stop hn, List.reverse_cons, List.flatMap_append, lookup_append_key h hn]
    rw [start_eq] at ih ⊢
    rw [ih]
    simp

/-! ### Addresses and the paths above them -/

theorem ancestors_eq_of_mem (h : WF ps nodes) (h' : WF ps nodes')
    (ha : IsAddress nodes a) (hmem : ∀ e ∈ nodes, stop e <+: a → e ∈ nodes') :
    ancestors nodes' a = ancestors nodes a := by
  induction ha using h.trie.address_induct with
  | root => rfl
  | edge n hn ih =>
    rw [h.trie.ancestors_stop hn, h'.trie.ancestors_stop (hmem n hn List.prefix_rfl),
      ih fun e he hpre => hmem e he (hpre.trans (start_prefix_stop n))]

theorem ancestors_suffix (h : WF ps nodes) {b : Path} (ha : IsAddress nodes a)
    (hb : IsAddress nodes b) (hba : b <+: a) : ancestors nodes b <:+ ancestors nodes a := by
  induction ha using h.trie.address_induct with
  | root => rw [List.prefix_nil.mp hba]
  | edge n hn ih =>
    rcases hb with rfl | ⟨m, hm, rfl⟩
    · rw [IsTrie.ancestors_nil]
      exact List.nil_suffix
    · by_cases hmn : m = n
      · rw [hmn]
      · rw [h.trie.ancestors_stop hn]
        exact (ih (h.trie.stop_prefix_start hm hn hmn hba)).trans (List.suffix_cons _ _)

theorem length_getMatchedIndices (h : WF ps nodes) (ha : IsAddress nodes a) :
    (getMatchedIndices nodes a).length = a.length := by
  induction ha using h.trie.address_induct with
  | root => rfl
  | edge n hn ih =>
    unfold getMatchedIndices at ih ⊢
    rw [h.trie.ancestors_stop hn, List.reverse_cons, List.flatMap_append, List.length_append, ih,
      length_stop, start_eq, key_eq]
    simp [h.value_len n hn]

variable {n : RadixTreeNode}

theorem length_of_address_inside (h : WF ps nodes) (hn : n ∈ nodes) {q : Path}
    (hq : IsAddress nodes q) (hlt : n.start.length < q.length) (hpre : q <+: stop n) :
    q = stop n := by
  rcases hq with rfl | ⟨m, hm, rfl⟩
  · simp at hlt
  · rw [h.trie.covers_unique hm hn (h.trie.dvd_stop hm) (h.trie.length_start_lt hm) List.prefix_rfl
      hlt hpre]

theorem WF.not_isAddress_splitAt (h : WF ps nodes) (hn : n ∈ nodes) {pos : ℕ}
    (hc : CutAt ps n pos) :
    ¬IsAddress nodes (stop (n.splitAt pos).1) := by
  intro ha
  have hlen := length_splitAt_fst hc
  have hpos := hc.pos_pos
  have hlt := hc.lt
  have hst : (n.splitAt pos).1.start = n.start := rfl
  have hup : (stop (n.splitAt pos).1).length = n.start.length + pos := by
    rw [length_stop, start_eq, key_eq, hst]
    rw [RadixTreeNode.length] at hlen
    rw [hlen]
  have hstop : (stop n).length = n.start.length + n.length := length_stop n
  have hin := length_of_address_inside h hn ha (by omega) (by
    rw [stop_splitAt_fst]
    exact (List.prefix_append_right_inj _).mpr (List.take_prefix _ _))
  have := congrArg List.length hin
  omega

/-! ### Locking a path -/

/-- A node without its lock fields and its timestamp. -/
def core (n : RadixTreeNode) : RadixTreeNode :=
  { n with timestamp := 0, refCount := 0, mambaRefCount := 0, swaRefCount := 0, swaUuid := none }

theorem start_of_core (h : core n = core n') : n.start = n'.start := by
  have := congrArg RadixTreeNode.start h
  exact this

theorem key_of_core (h : core n = core n') : n.key = n'.key := by
  have := congrArg RadixTreeNode.key h
  exact this

theorem value_of_core (h : core n = core n') : n.value = n'.value := by
  have := congrArg RadixTreeNode.value h
  exact this

theorem stop_of_core (h : core n = core n') : stop n = stop n' := by
  simp [stop, start_of_core h, key_of_core h]

/-- Two trees that differ in lock fields and timestamps only. -/
def SameCore (nodes nodes' : List RadixTreeNode) : Prop :=
  nodes'.map core = nodes.map core

namespace SameCore

theorem refl (nodes : List RadixTreeNode) : SameCore nodes nodes := rfl

theorem trans {nodes'' : List RadixTreeNode} (h : SameCore nodes nodes')
    (h' : SameCore nodes' nodes'') : SameCore nodes nodes'' :=
  Eq.trans h' h

theorem symm (h : SameCore nodes nodes') : SameCore nodes' nodes := Eq.symm h

theorem setNode (h : WF ps nodes) (hn : n ∈ nodes) (hf : core n' = core n) :
    SameCore nodes (setNode nodes n n') := by
  obtain ⟨l₁, l₂, hl, hs⟩ := h.trie.splice_eq hn
  unfold SameCore FreeToken.setNode
  rw [hs, hl]
  simp [hf]

theorem total_eq (h : SameCore nodes nodes')
    (hg : ∀ n, g (core n) = g n) : total g nodes' = total g nodes := by
  have hmap : ∀ l : List RadixTreeNode, total g l = ((l.map core).map g).sum := by
    intro l
    rw [total, List.map_map]
    congr 1
    exact List.map_congr_left fun n _ => (hg n).symm
  rw [hmap, hmap, h]

theorem exists_mem (h : SameCore nodes nodes') (hn : n ∈ nodes') :
    ∃ m ∈ nodes, core m = core n := by
  have : core n ∈ nodes.map core := h ▸ List.mem_map_of_mem hn
  simpa using this

theorem isAddress (h : SameCore nodes nodes') (hp : IsAddress nodes p) :
    IsAddress nodes' p := by
  refine hp.mono fun m hm => ?_
  obtain ⟨k, hk, hkm⟩ := h.symm.exists_mem hm
  exact ⟨k, hk, stop_of_core hkm⟩

theorem isLeaf_iff (h : SameCore nodes nodes') :
    IsLeaf nodes' a ↔ IsLeaf nodes a := by
  have key : ∀ {l l' : List RadixTreeNode}, SameCore l l' → IsLeaf l a → IsLeaf l' a := by
    intro l l' hll hl m hm
    obtain ⟨k, hk, hkm⟩ := hll.exists_mem hm
    rw [start_eq, ← start_of_core hkm]
    exact hl k hk
  exact ⟨key h.symm, key h⟩

theorem pages_eq (h : SameCore nodes nodes') (hw : WF ps nodes) (hw' : WF ps nodes') :
    pages ps nodes' = pages ps nodes := by
  have key : ∀ {l l' : List RadixTreeNode}, SameCore l l' → ∀ p b,
      (∃ e ∈ l, Covers e p ∧ blockOf value ps e p = b) →
        ∃ e ∈ l', Covers e p ∧ blockOf value ps e p = b := by
    intro l l' hll p b
    rintro ⟨e, he, hc, hb⟩
    obtain ⟨k, hk, hke⟩ := hll.symm.exists_mem he
    have hs := start_of_core hke
    refine ⟨k, hk, ?_, ?_⟩
    · simpa [Covers, hs, stop_of_core hke] using hc
    · simpa [blockOf, hs, value_of_core hke] using hb
  funext p
  exact hw.trie.pageAt_congr hw'.trie fun b => ⟨key h.symm p b, key h p b⟩

/-- Walking up meets the same nodes but for their lock fields and timestamps. -/
theorem ancestors_map (h : SameCore nodes nodes') (hw : WF ps nodes) (hw' : WF ps nodes')
    (ha : IsAddress nodes a) : (ancestors nodes' a).map core = (ancestors nodes a).map core := by
  induction ha using hw.trie.address_induct with
  | root => rfl
  | edge n hn ih =>
    obtain ⟨m, hm, hmn⟩ := h.symm.exists_mem hn
    rw [hw.trie.ancestors_stop hn, ← stop_of_core hmn, hw'.trie.ancestors_stop hm, List.map_cons,
      List.map_cons, hmn, start_eq, start_of_core hmn]
    rw [start_eq] at ih ⊢
    rw [ih]

theorem getMatchedIndices_eq (h : SameCore nodes nodes') (hw : WF ps nodes) (hw' : WF ps nodes')
    (ha : IsAddress nodes a) : getMatchedIndices nodes' a = getMatchedIndices nodes a := by
  have hmap :
      ∀ l : List RadixTreeNode, l.reverse.flatMap value = (l.map core).reverse.flatMap value := by
    intro l
    rw [← List.map_reverse, List.flatMap_map]
    rfl
  unfold getMatchedIndices
  rw [hmap, h.ancestors_map hw hw' ha, ← hmap]

end SameCore

variable {fuel : ℕ}

section Climb

variable {σ : Type*} {step : σ → RadixTreeNode → σ × RadixTreeNode}

/-- Walking up from a locked path meets each node on it once, before the nodes above it. -/
theorem prefix_stop_iff (h : WF ps nodes) (hn : n ∈ nodes) {m : RadixTreeNode} (hm : m ∈ nodes)
    (hne : m ≠ n) : stop m <+: stop n ↔ stop m <+: n.start :=
  ⟨h.trie.stop_prefix_start hm hn hne, fun hp => hp.trans (start_prefix_stop n)⟩

theorem not_stop_prefix_start (h : WF ps nodes) (hn : n ∈ nodes) : ¬stop n <+: n.start := by
  intro hp
  have h₁ := hp.length_le
  have h₂ := h.trie.length_start_lt hn
  rw [start_eq] at h₂
  omega

/-- A climb that bumps the reference count of each node by `d` and adjusts the counters as the
bump requires. -/
theorem climb_refs {d : ℤ} {s₀ : σ} (sz : σ → KvSizes)
    (hcore : ∀ s n, core (step s n).2 = core n)
    (href : ∀ s n, (step s n).2.refCount = n.refCount + d)
    (hev : ∀ s n, n.refCount = lockCount locks (stop n) → stop n <+: a →
      (sz (step s n).1).evictable =
        (sz s).evictable - evictableTokens n + evictableTokens (step s n).2)
    (hpr : ∀ s n, n.refCount = lockCount locks (stop n) → stop n <+: a →
      (sz (step s n).1).protectedSize =
        (sz s).protectedSize - protectedTokens n + protectedTokens (step s n).2)
    (h : KvInv ps locks nodes (sz s₀)) (ha : IsAddress nodes a) (hf : a.length ≤ fuel) :
    SameCore nodes (climb step fuel s₀ nodes a).2 ∧ WF ps (climb step fuel s₀ nodes a).2 ∧
      (∀ n ∈ (climb step fuel s₀ nodes a).2,
        n.refCount = lockCount locks (stop n) + if stop n <+: a then d else 0) ∧
      (sz (climb step fuel s₀ nodes a).1).evictable =
        total evictableTokens (climb step fuel s₀ nodes a).2 ∧
      (sz (climb step fuel s₀ nodes a).1).protectedSize =
        total protectedTokens (climb step fuel s₀ nodes a).2 := by
  have hstart : ∀ s n, (step s n).2.start = n.start := fun s n => start_of_core (hcore s n)
  have hkey : ∀ s n, (step s n).2.key = n.key := fun s n => key_of_core (hcore s n)
  have hval : ∀ s n, (step s n).2.value = n.value := fun s n => value_of_core (hcore s n)
  -- the nodes between `p` and `a` are bumped, those above `p` are not yet
  let M : σ → List RadixTreeNode → Path → Prop := fun s l p =>
    SameCore nodes l ∧ WF ps l ∧ p <+: a ∧
      (∀ n ∈ l, n.refCount =
        lockCount locks (stop n) + if stop n <+: a ∧ ¬stop n <+: p then d else 0) ∧
      (sz s).evictable = total evictableTokens l ∧ (sz s).protectedSize = total protectedTokens l
  have hrun := climb_induct (M := M) hstart hkey ?_ fuel s₀ nodes a
    h.wf.trie ha hf ?_
  · obtain ⟨hsame, hwf, -, hrefs, he, hp⟩ := hrun.2
    refine ⟨hsame, hwf, fun n hn => ?_, he, hp⟩
    rw [hrefs n hn]
    have : ¬stop n <+: [] := fun hp0 =>
      hwf.trie.stop_ne_nil hn (List.prefix_nil.mp hp0)
    simp [this]
  · rintro s l e ht he ⟨hsame, hwf, hpre, hrefs, hse, hsp⟩
    have hre : e.refCount = lockCount locks (stop e) := by
      rw [hrefs e he, if_neg fun hx => hx.2 List.prefix_rfl, add_zero]
    refine ⟨hsame.trans (SameCore.setNode hwf he (hcore s e)), hwf.setNode he (hstart s e)
      (hkey s e) (by rw [hval]), (start_prefix_stop e).trans hpre, ?_, ?_, ?_⟩
    · intro m hm
      rcases (hwf.mem_setNode he).mp hm with rfl | ⟨hm, hne⟩
      · have hst : stop (step s e).2 = stop e := by simp [stop, hstart, hkey]
        rw [href, hre, hst, if_pos ⟨hpre, not_stop_prefix_start hwf he⟩]
      · simp only [hrefs m hm, prefix_stop_iff hwf he hm hne, start_eq]
    · have : total evictableTokens (setNode l e (step s e).2) = _ := hwf.total_setNode he _
      unfold setNode at this
      rw [hev s e hre hpre, this, hse]
    · have : total protectedTokens (setNode l e (step s e).2) = _ := hwf.total_setNode he _
      unfold setNode at this
      rw [hpr s e hre hpre, this, hsp]
  · refine ⟨SameCore.refl _, h.wf, List.prefix_rfl, fun n hn => ?_, h.evictable, h.protectedSize⟩
    rw [h.ref n hn, if_neg fun hx => hx.2 hx.1]
    ring

end Climb

section Lock

variable {locks : List Path} {s : KvSizes} {a : Path}

theorem incRef_evictable (h0 : 0 ≤ n.refCount) :
    (incRef s n).1.evictable = s.evictable - evictableTokens n + evictableTokens
    (incRef s n).2 := by
  unfold incRef evictableTokens
  by_cases h : n.refCount = 0
  · simp [h]
  · have : n.refCount + 1 ≠ 0 := by omega
    simp [h, this]

theorem incRef_protectedSize (h0 : 0 ≤ n.refCount) :
    (incRef s n).1.protectedSize =
      s.protectedSize - protectedTokens n + protectedTokens (incRef s n).2 := by
  unfold incRef protectedTokens
  by_cases h : n.refCount = 0
  · simp [h, RadixTreeNode.length]
  · have : n.refCount + 1 ≠ 0 := by omega
    simp [h, this, RadixTreeNode.length]

theorem decRef_evictable (h0 : 0 < n.refCount) :
    (decRef s n).1.evictable = s.evictable - evictableTokens n + evictableTokens
    (decRef s n).2 := by
  unfold decRef evictableTokens
  by_cases h : n.refCount - 1 = 0
  · simp [h, h0.ne', RadixTreeNode.length]
  · simp [h, h0.ne']

theorem decRef_protectedSize (h0 : 0 < n.refCount) :
    (decRef s n).1.protectedSize =
      s.protectedSize - protectedTokens n + protectedTokens (decRef s n).2 := by
  unfold decRef protectedTokens
  by_cases h : n.refCount - 1 = 0
  · simp [h, h0.ne']
  · simp [h, h0.ne', RadixTreeNode.length]

theorem lockCount_pos {q : Path} (hq : q ∈ locks) (ha : a <+: q) : 0 < lockCount locks a :=
  lt_of_le_of_ne (lockCount_nonneg _ _) fun h0 => lockCount_eq_zero.mp h0.symm q hq ha

variable {σ : Type*} {step : σ → RadixTreeNode → σ × RadixTreeNode} (sz : σ → KvSizes) {s₀ : σ}

variable (step s₀) in
/-- A climb that takes a reference on each node of a path adds the path to the locks. -/
theorem KvInv.climb_inc (h : KvInv ps locks nodes (sz s₀)) (ha : IsAddress nodes a)
    (hcore : ∀ s n, core (step s n).2 = core n)
    (href : ∀ s n, (step s n).2.refCount = (incRef (sz s) n).2.refCount)
    (hsz : ∀ s n, sz (step s n).1 = (incRef (sz s) n).1) (hf : a.length ≤ fuel) :
    KvInv ps (a :: locks) (climb step fuel s₀ nodes a).2 (sz (climb step fuel s₀ nodes a).1) ∧
      SameCore nodes (climb step fuel s₀ nodes a).2 := by
  have hlen : ∀ s n, (step s n).2.length = n.length := fun s n =>
    congrArg List.length (key_of_core (hcore s n))
  have hnn : ∀ n : RadixTreeNode, n.refCount = lockCount locks (stop n) → 0 ≤ n.refCount :=
    fun n hn => hn ▸ lockCount_nonneg _ _
  obtain ⟨hsame, hwf, hrefs, he, hp⟩ := climb_refs (d := 1) sz hcore href (fun s n hn _ => by
      rw [hsz, incRef_evictable (hnn n hn)]
      simp only [evictableTokens, href, hlen]
      rfl)
    (fun s n hn _ => by
      rw [hsz, incRef_protectedSize (hnn n hn)]
      simp only [protectedTokens, href, hlen]
      rfl) h ha hf
  refine ⟨⟨hwf, ?_, ?_, he, hp⟩, hsame⟩
  · intro q hq
    rcases List.mem_cons.mp hq with rfl | hq
    · exact hsame.isAddress ha
    · exact hsame.isAddress (h.locked q hq)
  · intro n hn
    rw [hrefs n hn, lockCount_cons]

variable (step s₀) in
/-- A climb that gives back a reference on each node of a locked path removes it from the locks. -/
theorem KvInv.climb_dec (h : KvInv ps locks nodes (sz s₀)) (ha : a ∈ locks)
    (hcore : ∀ s n, core (step s n).2 = core n)
    (href : ∀ s n, (step s n).2.refCount = (decRef (sz s) n).2.refCount)
    (hsz : ∀ s n, sz (step s n).1 = (decRef (sz s) n).1) (hf : a.length ≤ fuel) :
    KvInv ps (locks.erase a) (climb step fuel s₀ nodes a).2 (sz (climb step fuel s₀ nodes a).1) ∧
      SameCore nodes (climb step fuel s₀ nodes a).2 := by
  have hlen : ∀ s n, (step s n).2.length = n.length := fun s n =>
    congrArg List.length (key_of_core (hcore s n))
  have hpos : ∀ n : RadixTreeNode, n.refCount = lockCount locks (stop n) → stop n <+: a →
      0 < n.refCount := fun n hn hp => hn ▸ lockCount_pos ha hp
  obtain ⟨hsame, hwf, hrefs, he, hp⟩ :=
    climb_refs (d := -1) sz hcore (fun s n => (href s n).trans rfl) (fun s n hn hp => by
      rw [hsz, decRef_evictable (hpos n hn hp)]
      simp only [evictableTokens, href, hlen]
      rfl)
    (fun s n hn hp => by
      rw [hsz, decRef_protectedSize (hpos n hn hp)]
      simp only [protectedTokens, href, hlen]
      rfl) h (h.locked a ha) hf
  refine ⟨⟨hwf, fun q hq => hsame.isAddress (h.locked q (List.mem_of_mem_erase hq)), ?_, he, hp⟩,
    hsame⟩
  intro n hn
  rw [hrefs n hn, lockCount_erase ha]
  split <;> ring

/-- **Locking a path** adds it to the outstanding locks. -/
theorem KvInv.lock (h : KvInv ps locks nodes s) (ha : IsAddress nodes a) :
    KvInv ps (a :: locks) (climb incRef a.length s nodes a).2 (climb incRef a.length s nodes a).1 ∧
      SameCore nodes (climb incRef a.length s nodes a).2 :=
  h.climb_inc _ id s ha (fun _ _ => rfl) (fun _ _ => rfl) (fun _ _ => rfl) le_rfl

/-- **Unlocking a path** removes it from the outstanding locks. -/
theorem KvInv.unlock (h : KvInv ps locks nodes s) (ha : a ∈ locks) :
    KvInv ps (locks.erase a) (climb decRef a.length s nodes a).2
        (climb decRef a.length s nodes a).1 ∧
      SameCore nodes (climb decRef a.length s nodes a).2 :=
  h.climb_dec _ id s ha (fun _ _ => rfl) (fun _ _ => rfl) (fun _ _ => rfl) le_rfl

end Lock

end FreeToken
