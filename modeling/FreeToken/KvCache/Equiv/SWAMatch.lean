import FreeToken.KvCache.Equiv.SWALocks

/-!
# `SWARadixCache.match_prefix`

* `Reusable`: a boundary whose trailing live run covers the window, or whose path is live
  throughout.
* `SWARadixCache.matchPrefix_spec`: **`match_prefix` returns the deepest reusable boundary** not
  past the full token match, and only restamps and cuts nodes.
* `Reusable.live_of_window`: below a reusable boundary the trailing window is live.
-/

namespace FreeToken

open List TrieEdge RadixTreeNode SWARadixCache

variable {ps window : ℕ} {nodes nodes' : List RadixTreeNode}

/-! ### Reusable boundaries -/

/-- The live tokens counted upwards until the first tombstone. -/
def liveRun : List RadixTreeNode → ℕ
  | [] => 0
  | n :: ns => if n.swaTombstone then 0 else n.length + liveRun ns

/-- A boundary from which the window layers can resume. -/
def Reusable (window : ℕ) (nodes : List RadixTreeNode) (a : Path) : Prop :=
  window ≤ liveRun (ancestors nodes a) ∨ ∀ n ∈ ancestors nodes a, n.swaTombstone = false

theorem reusable_nil (nodes : List RadixTreeNode) : Reusable window nodes [] :=
  Or.inr (by simp [IsTrie.ancestors_nil])

theorem liveRun_map_core (ns : List RadixTreeNode) : liveRun (ns.map core) = liveRun ns := by
  induction ns with
  | nil => rfl
  | cons n ns ih =>
    have h₁ : (core n).swaTombstone = n.swaTombstone := rfl
    have h₂ : (core n).length = n.length := rfl
    simp only [map_cons, liveRun, h₁, h₂, ih]

theorem SameCore.reusable_iff (h : SameCore nodes nodes') (hw : WF ps nodes) (hw' : WF ps nodes')
    {a : Path} (ha : IsAddress nodes a) : Reusable window nodes' a ↔ Reusable window nodes a := by
  have hall : ∀ ns : List RadixTreeNode, (∀ n ∈ ns, n.swaTombstone = false) ↔
      ∀ n ∈ ns.map core, n.swaTombstone = false := by
    intro ns
    rw [forall_mem_map]
    rfl
  unfold Reusable
  rw [← liveRun_map_core (ancestors nodes' a), hall (ancestors nodes' a),
    h.ancestors_map hw hw' ha, liveRun_map_core, ← hall]

/-- The node of a reusable boundary is live. -/
theorem Reusable.live (hr : Reusable window nodes a) (hwin : 0 < window) (h : WF ps nodes)
    {n : RadixTreeNode} (hn : n ∈ nodes) (hna : stop n = a) : n.swaTombstone = false := by
  subst hna
  unfold Reusable at hr
  rw [h.trie.ancestors_stop hn] at hr
  rcases hr with hr | hr
  · by_contra ht
    rw [liveRun, if_pos (by simpa using ht)] at hr
    omega
  · exact hr n mem_cons_self

/-- **The trailing window of a reusable boundary is live.** -/
theorem Reusable.live_of_window (hr : Reusable window nodes a) (h : WF ps nodes)
    (ha : IsAddress nodes a) {i : ℕ} (hlt : i < a.length) (hge : a.length ≤ i + window) :
    ∃ n ∈ nodes, stop n <+: a ∧ n.start.length ≤ i ∧ i < (stop n).length ∧
      n.swaTombstone = false := by
  induction ha using h.trie.address_induct generalizing window with
  | root => simp at hlt
  | edge n hn ih =>
    unfold Reusable at hr
    rw [h.trie.ancestors_stop hn] at hr
    have hlive : 0 < window → n.swaTombstone = false := fun hw =>
      Reusable.live (a := stop n) (by rw [Reusable, h.trie.ancestors_stop hn]; exact hr) hw h hn rfl
    rcases Nat.lt_or_ge i n.start.length with hi | hi
    · have hsl : (stop n).length = n.start.length + n.length := length_stop n
      have hup : Reusable (window - n.length) nodes n.start := by
        rcases hr with hr | hr
        · refine Or.inl ?_
          rw [liveRun, if_neg (by simp [hlive (by omega)])] at hr
          rw [start_eq] at hr
          omega
        · exact Or.inr fun m hm => hr m (mem_cons_of_mem _ hm)
      obtain ⟨m, hm, hpre, hrest⟩ := ih hup hi (by rw [start_eq]; omega)
      exact ⟨m, hm, hpre.trans (start_prefix_stop n), hrest⟩
    · exact ⟨n, hn, prefix_rfl, hi, hlt, hlive (by omega)⟩

/-! ### The running count of `match_prefix` -/

/-- The value of `match_since_tomb` at a boundary. -/
def sinceTomb : List RadixTreeNode → Option ℕ
  | [] => none
  | n :: ns => if n.swaTombstone then some 0 else (sinceTomb ns).map (· + n.length)

theorem sinceTomb_eq (ns : List RadixTreeNode) :
    (sinceTomb ns = none ∧ ∀ n ∈ ns, n.swaTombstone = false) ∨
      (sinceTomb ns = some (liveRun ns) ∧ ∃ n ∈ ns, n.swaTombstone = true) := by
  induction ns with
  | nil => exact Or.inl ⟨rfl, by simp⟩
  | cons n ns ih =>
    unfold sinceTomb liveRun
    cases ht : n.swaTombstone with
    | true => exact Or.inr ⟨by simp, n, mem_cons_self, ht⟩
    | false =>
      rcases ih with ⟨h₁, h₂⟩ | ⟨h₁, m, hm, hmt⟩
      · refine Or.inl ⟨by simp [h₁], fun m hm => ?_⟩
        rcases List.mem_cons.mp hm with rfl | hm
        · exact ht
        · exact h₂ m hm
      · exact Or.inr ⟨by simp [h₁, Nat.add_comm], m, mem_cons_of_mem _ hm, hmt⟩

theorem coversWindow_sinceTomb (window : ℕ) (nodes : List RadixTreeNode) (a : Path) :
    coversWindow window (sinceTomb (ancestors nodes a)) = true ↔ Reusable window nodes a := by
  unfold Reusable
  rcases sinceTomb_eq (ancestors nodes a) with ⟨h₁, h₂⟩ | ⟨h₁, n, hn, ht⟩
  · simp only [h₁, coversWindow, true_iff]
    exact Or.inr h₂
  · rw [h₁]
    simp only [coversWindow, decide_eq_true_eq]
    refine ⟨Or.inl, fun hor => hor.resolve_right fun hall => ?_⟩
    rw [hall n hn] at ht
    exact absurd ht (by decide)

/-! ### The loop of `match_prefix` -/

/-- The loop invariant of `match_prefix`. -/
structure MatchInv (ps window : ℕ) (nodes : List RadixTreeNode) (ids : List Token)
    (s : MatchState) : Prop where
  wf : WF ps s.nodes
  reshape : Reshape ps nodes s.nodes
  pos_le : s.prefixPos ≤ ids.length
  node_eq : s.node = ids.take s.prefixPos
  address : IsAddress s.nodes s.node
  value : s.value = (ancestors s.nodes s.node).reverse.map value
  since : s.matchSinceTomb = sinceTomb (ancestors s.nodes s.node)
  bestAddress : IsAddress s.nodes s.bestNode
  best_prefix : s.bestNode <+: s.node
  bestReusable : Reusable window s.nodes s.bestNode
  bestLen : s.bestValueLen = (ancestors s.nodes s.bestNode).length
  max : ∀ q, q <+: s.node → IsAddress s.nodes q → Reusable window s.nodes q →
    q.length ≤ s.bestNode.length ∨ Reusable window s.nodes s.node

theorem MatchInv.start (h : WF ps nodes) (ids : List Token) :
    MatchInv ps window nodes ids { nodes := nodes } where
  wf := h
  reshape := .refl
  pos_le := Nat.zero_le _
  node_eq := rfl
  address := isAddress_nil _
  value := rfl
  since := rfl
  bestAddress := isAddress_nil _
  best_prefix := prefix_rfl
  bestReusable := reusable_nil _
  bestLen := rfl
  max q hq _ _ := Or.inl (by rw [List.prefix_nil.mp hq])

variable {ids : List Token} {s : MatchState}

theorem commit_fields (window : ℕ) (s : MatchState) :
    (s.commit window).nodes = s.nodes ∧ (s.commit window).node = s.node ∧
      (s.commit window).value = s.value ∧ (s.commit window).matchSinceTomb = s.matchSinceTomb ∧
      (s.commit window).prefixPos = s.prefixPos := by
  unfold MatchState.commit
  split <;> simp

theorem endRun_fields (window : ℕ) (s : MatchState) (n : RadixTreeNode) :
    (s.endRun window n).nodes = s.nodes ∧ (s.endRun window n).prefixPos = s.prefixPos := by
  obtain ⟨h₁, -, -, -, h₂⟩ := commit_fields window s
  unfold MatchState.endRun
  split <;> simp [h₁, h₂]

/-- Ending a run before a node is cut is ending it before the upper part. -/
theorem endRun_splitNode (window : ℕ) (s : MatchState) (n : RadixTreeNode) (pos : ℕ) :
    { s.endRun window n with nodes := splitNode (s.endRun window n).nodes n pos } =
      MatchState.endRun window { s with nodes := splitNode s.nodes n pos } (n.splitAt pos).1 := by
  have ht : (n.splitAt pos).1.swaTombstone = n.swaTombstone := rfl
  rw [(endRun_fields window s n).1]
  unfold MatchState.endRun MatchState.commit
  rw [ht]
  split
  · split <;> rfl
  · rfl

theorem MatchInv.commit (h : MatchInv ps window nodes ids s) :
    MatchInv ps window nodes ids (s.commit window) ∧
      ∀ q, q <+: s.node → IsAddress s.nodes q → Reusable window s.nodes q →
        q.length ≤ (s.commit window).bestNode.length := by
  have hcov := coversWindow_sinceTomb window s.nodes s.node
  rw [← h.since] at hcov
  unfold MatchState.commit
  split
  · next hc =>
    have hre := hcov.mp hc
    refine ⟨⟨h.wf, h.reshape, h.pos_le, h.node_eq, h.address, h.value, h.since, h.address,
      prefix_rfl, hre, by rw [h.value]; simp, fun q hq _ _ => Or.inl hq.length_le⟩,
      fun q hq _ _ => hq.length_le⟩
  · next hc =>
    refine ⟨h, fun q hq haq hrq => (h.max q hq haq hrq).resolve_right fun hre => hc (hcov.mpr hre)⟩

theorem MatchInv.split (h : MatchInv ps window nodes ids s) {n : RadixTreeNode}
    (hn : n ∈ s.nodes) (hs : n.start = s.node) {pos : ℕ} (hc : CutAt ps n pos) :
    MatchInv ps window nodes ids { s with nodes := splitNode s.nodes n pos } := by
  have hr : ReshapeStep ps s.nodes (splitNode s.nodes n pos) := .split hn hc
  have hwf := hr.wf h.wf
  -- the split node is below the walk, so the ancestors up to here stay
  have hlong : ∀ {q : Path}, q <+: s.node → ¬stop n <+: q := fun hq hpre => by
    have h₁ := (hpre.trans hq).length_le
    have h₂ := h.wf.trie.length_start_lt hn
    rw [start_eq, hs] at h₂
    omega
  have hanc : ∀ {q : Path}, q <+: s.node → IsAddress s.nodes q →
      ancestors (splitNode s.nodes n pos) q = ancestors s.nodes q := fun {q} hq haq =>
    ancestors_eq_of_mem h.wf hwf haq fun e he hpre =>
      (h.wf.mem_splitNode hn).mpr (Or.inr (Or.inr ⟨he, fun hen => hlong hq (hen ▸ hpre)⟩))
  have hre : ∀ {q : Path}, q <+: s.node → IsAddress s.nodes q →
      (Reusable window (splitNode s.nodes n pos) q ↔ Reusable window s.nodes q) := fun hq haq => by
    unfold Reusable
    rw [hanc hq haq]
  have hback : ∀ {q : Path}, q <+: s.node → IsAddress (splitNode s.nodes n pos) q →
      IsAddress s.nodes q := by
    rintro q hq (rfl | ⟨e, he, rfl⟩)
    · exact isAddress_nil _
    · rcases (h.wf.mem_splitNode hn).mp he with rfl | rfl | ⟨he, -⟩
      · exfalso
        have h₁ := hq.length_le
        have h₂ := length_splitAt_fst hc
        have h₃ := hc.pos_pos
        rw [length_stop, start_eq, key_eq] at h₁
        rw [RadixTreeNode.length] at h₂
        have h₄ : (n.splitAt pos).1.start = s.node := hs
        rw [h₄, h₂] at h₁
        omega
      · rw [stop_splitAt_snd] at hq
        exact absurd prefix_rfl (hlong hq)
      · exact isAddress_stop he
  refine ⟨hwf, h.reshape.tail hr, h.pos_le, h.node_eq, hr.isAddress h.wf h.address, ?_, ?_,
    hr.isAddress h.wf h.bestAddress, h.best_prefix, (hre h.best_prefix h.bestAddress).mpr
    h.bestReusable, ?_, ?_⟩
  · simp only [hanc prefix_rfl h.address, h.value]
  · simp only [hanc prefix_rfl h.address, h.since]
  · simp only [hanc h.best_prefix h.bestAddress, h.bestLen]
  · intro q hq haq hrq
    have haq' := hback hq haq
    rcases h.max q hq haq' ((hre hq haq').mp hrq) with hle | hno
    · exact Or.inl hle
    · exact Or.inr ((hre prefix_rfl h.address).mpr hno)

/-- Moving to the end of a matched node, after a commit if the node is a tombstone. -/
theorem MatchInv.enter (hwin : 0 < window) (h : MatchInv ps window nodes ids s)
    {n : RadixTreeNode} (hn : n ∈ s.nodes) (hs : n.start = s.node)
    (hstop : stop n = ids.take (s.prefixPos + n.length))
    (hle : s.prefixPos + n.length ≤ ids.length) :
    MatchInv ps window nodes ids ((s.endRun window n).enter n) := by
  have hanc := h.wf.trie.ancestors_stop hn
  rw [start_eq, hs] at hanc
  have hup : s.node <+: stop n := hs ▸ start_prefix_stop n
  -- the only boundary past the present one is the end of the node
  have hbound : ∀ q, q <+: stop n → IsAddress s.nodes q → q <+: s.node ∨ q = stop n := by
    intro q hq haq
    rcases Nat.lt_or_ge s.node.length q.length with hlt | hge
    · exact Or.inr (length_of_address_inside h.wf hn haq (hs ▸ hlt) hq)
    · exact Or.inl (prefix_of_prefix_length_le hq hup hge)
  cases ht : n.swaTombstone with
  | true =>
    obtain ⟨hci, hcm⟩ := h.commit
    obtain ⟨hcn, hcnode, hcv, -, hcp⟩ := commit_fields window s
    have hdead : ¬Reusable window s.nodes (stop n) := fun hre => by
      have := hre.live hwin h.wf hn rfl
      rw [ht] at this
      exact absurd this (by decide)
    simp only [MatchState.enter, MatchState.endRun, ht, if_true]
    refine ⟨hci.wf, hci.reshape, by rw [hcp]; exact hle, by rw [hcp]; exact hstop,
      by rw [hcn]; exact isAddress_stop hn, ?_, ?_, hci.bestAddress, ?_, hci.bestReusable,
      hci.bestLen, ?_⟩
    · simp only [hcn, hcv]
      rw [hanc, h.value]
      simp
    · simp only [hcn]
      rw [hanc, sinceTomb, if_pos ht]
    · have := hci.best_prefix
      rw [hcnode] at this
      exact this.trans hup
    · intro q hq haq hrq
      simp only [hcn] at haq hrq
      rcases hbound q hq haq with hq' | rfl
      · exact Or.inl (hcm q hq' haq hrq)
      · exact absurd hrq hdead
  | false =>
    simp only [MatchState.enter, MatchState.endRun, ht, Bool.false_eq_true, if_false]
    refine ⟨h.wf, h.reshape, hle, hstop, isAddress_stop hn, ?_, ?_, h.bestAddress,
      h.best_prefix.trans hup, h.bestReusable, h.bestLen, ?_⟩
    · simp only [hanc, h.value]
      simp
    · simp only [hanc, h.since, sinceTomb, ht, Bool.false_eq_true, if_false]
    · -- a live run only grows
      have hgrow : Reusable window s.nodes s.node → Reusable window s.nodes (stop n) := by
        unfold Reusable
        rw [hanc]
        rintro (hr | hr)
        · refine Or.inl (hr.trans ?_)
          rw [liveRun, if_neg (by simp [ht])]
          omega
        · refine Or.inr fun m hm => ?_
          rcases List.mem_cons.mp hm with rfl | hm
          · exact ht
          · exact hr m hm
      intro q hq haq hrq
      rcases hbound q hq haq with hq' | rfl
      · rcases h.max q hq' haq hrq with hle' | hre
        · exact Or.inl hle'
        · exact Or.inr (hgrow hre)
      · exact Or.inr hrq

theorem matchLoop_spec (hwin : 0 < window) :
    ∀ (fuel : ℕ) (s : MatchState), MatchInv ps window nodes ids s →
      ids.length ≤ s.prefixPos + fuel →
      MatchInv ps window nodes ids (matchLoop ps window ids fuel s) ∧
        IsLongest ps (Resident s.nodes) ids (matchLoop ps window ids fuel s).prefixPos := by
  intro fuel
  have exhausted : ∀ s : MatchState, MatchInv ps window nodes ids s → s.prefixPos = ids.length →
      IsLongest ps (Resident s.nodes) ids s.prefixPos := by
    intro s h hpos
    have ha := h.address
    rw [h.node_eq, hpos, take_length] at ha
    rw [hpos]
    exact h.wf.trie.isLongest_of_exhausted ha
  induction fuel with
  | zero =>
    intro s h hf
    have := h.pos_le
    exact ⟨h, exhausted s h (by omega)⟩
  | succ fuel ih =>
    intro s h hf
    unfold matchLoop
    have hpos := h.pos_le
    by_cases hlt : s.prefixPos < ids.length
    swap
    · rw [if_neg hlt]
      exact ⟨h, exhausted s h (by omega)⟩
    rw [if_pos hlt]
    cases hc : childAt ps s.nodes s.node (ids.drop s.prefixPos) with
    | none =>
      rw [h.node_eq] at hc
      exact ⟨h, h.wf.trie.isLongest_of_childAt_none hpos (h.node_eq ▸ h.address) hc⟩
    | some child =>
      rw [h.node_eq] at hc
      obtain ⟨hmem, hs, m, hm, hm0, hkm, hcase⟩ := walk_enter h.wf hpos hc
      rw [← h.node_eq] at hs
      obtain ⟨hn, hpp⟩ := endRun_fields window s child
      have hm' : alignDown (child.getMatchLen (ids.drop (s.endRun window child).prefixPos)) ps =
          m := by rw [hpp, hm]
      simp only [hm', if_neg hm0.ne']
      rcases hcase with ⟨hpart, hcut, hstop, hlong⟩ | ⟨rfl, hstop⟩
      · -- the match ends inside the child: cut it there and stop
        rw [if_pos hpart, endRun_splitNode]
        have hlen := length_splitAt_fst hcut
        have hent := (h.split hmem hs hcut).enter hwin
          ((h.wf.mem_splitNode hmem).mpr (Or.inl rfl)) hs (by rw [hstop, hlen])
          (by rw [hlen]; exact hkm)
        refine ⟨hent, ?_⟩
        simp only [MatchState.enter, (endRun_fields _ _ _).2, hlen]
        exact hlong
      · -- the whole child is matched: go on below it
        rw [if_neg (lt_irrefl _)]
        have hent := h.enter hwin hmem hs hstop hkm
        have hrec := ih _ hent (by simp only [MatchState.enter, hpp]; omega)
        have hnodes : ((s.endRun window child).enter child).nodes = s.nodes := hn
        rwa [hnodes] at hrec

/-! ### Stamping a path -/

theorem stampPath_reshape (h : WF ps nodes) {a : Path} (ha : IsAddress nodes a) (base : ℤ) :
    Reshape ps nodes (climb (stampStep base) a.length 0 nodes a).2 ∧
      SameCore nodes (climb (stampStep base) a.length 0 nodes a).2 := by
  have hstart : ∀ s n, (stampStep base s n).2.start = n.start := fun _ _ => rfl
  have hkey : ∀ s n, (stampStep base s n).2.key = n.key := fun _ _ => rfl
  have hloop := climb_induct (M := fun _ l _ => Reshape ps nodes l ∧ SameCore nodes l) hstart hkey
    (fun s l e ht he hM => ⟨hM.1.tail (.stamp he _), hM.2.trans
      (SameCore.setNode (hM.1.wf h) he rfl)⟩) a.length 0 nodes a h.trie ha le_rfl
    ⟨.refl, .refl _⟩
  exact hloop.2

/-! ### The result of `match_prefix` -/

namespace SWARadixCache

/-- What `match_prefix` does to the cache and what it returns. -/
structure MatchSpec (c : SWARadixCache) (ids : List Token) (c' : SWARadixCache) (r : SWAMatch)
    (m : ℕ) : Prop where
  reshape : Reshape c.pageSize c.nodes c'.nodes
  fields : c'.pageSize = c.pageSize ∧ c'.slidingWindowSize = c.slidingWindowSize ∧
    c'.full = c.full ∧ c'.swa = c.swa ∧ c'.uuid = c.uuid
  /-- `m` is the full token match, and the walk has made it a boundary. -/
  longest : IsLongest c.pageSize (Resident c.nodes) ids m
  address : IsAddress c'.nodes (ids.take m)
  le : r.cachedLen ≤ m
  node_eq : r.node = ids.take r.cachedLen
  nodeAddress : IsAddress c'.nodes r.node
  reusable : Reusable c.slidingWindowSize c'.nodes r.node
  max : ∀ k ≤ m, IsAddress c'.nodes (ids.take k) →
    Reusable c.slidingWindowSize c'.nodes (ids.take k) → k ≤ r.cachedLen
  kvIndices : r.kvIndices = getMatchedIndices c'.nodes r.node

/-- **`match_prefix` returns the deepest reusable boundary** not past the full token match. -/
theorem matchPrefix_spec {c : SWARadixCache} (hwin : 0 < c.slidingWindowSize)
    (h : WF c.pageSize c.nodes) (ids : List Token) :
    ∃ m, MatchSpec c ids (c.matchPrefix ids).1 (c.matchPrefix ids).2 m := by
  obtain ⟨hinv, hlong⟩ := matchLoop_spec hwin ids.length { nodes := c.nodes }
    (MatchInv.start h ids) (by simp)
  obtain ⟨s₀, hs₀⟩ : ∃ s₀, s₀ = matchLoop c.pageSize c.slidingWindowSize ids ids.length
    { nodes := c.nodes } := ⟨_, rfl⟩
  rw [← hs₀] at hinv hlong
  obtain ⟨hcom, hmax⟩ := hinv.commit
  obtain ⟨hn, hnode, hval, -, hpp⟩ := commit_fields c.slidingWindowSize s₀
  obtain ⟨s, hs⟩ : ∃ s, s = s₀.commit c.slidingWindowSize := ⟨_, rfl⟩
  rw [← hs] at hcom hmax hn hnode hval hpp
  have hstamp := stampPath_reshape hcom.wf hcom.bestAddress ((c.clk + 1 : ℕ) * eventStride)
  obtain ⟨hre, hsame⟩ := hstamp
  have hwf' := hre.wf hcom.wf
  -- the values recorded up to the best boundary are its indices
  have hkv : (s.value.take s.bestValueLen).flatten = getMatchedIndices s.nodes s.bestNode := by
    obtain ⟨t, ht⟩ := ancestors_suffix hcom.wf hcom.address hcom.bestAddress hcom.best_prefix
    rw [hcom.value, hcom.bestLen, ← ht, reverse_append, map_append, take_append]
    rw [take_of_length_le (by simp)]
    simp [getMatchedIndices, flatMap_def]
  have hlen : s.bestNode.length ≤ ids.length := by
    refine hcom.best_prefix.length_le.trans ?_
    rw [hcom.node_eq, length_take]
    exact Nat.min_le_right _ _
  have hbest : s.bestNode = ids.take s.bestNode.length := by
    refine List.prefix_iff_eq_take.mp (hcom.best_prefix.trans ?_)
    rw [hcom.node_eq]
    exact take_prefix _ _
  have hmatch : c.matchPrefix ids = (({ c with nodes := s.nodes } : SWARadixCache).stampPath
      s.bestNode, ⟨(s.value.take s.bestValueLen).flatten,
        (s.value.take s.bestValueLen).flatten.length, s.bestNode⟩) := by
    rw [hs, hs₀]
    rfl
  have hcl : (s.value.take s.bestValueLen).flatten.length = s.bestNode.length := by
    rw [hkv, length_getMatchedIndices hcom.wf hcom.bestAddress]
  refine ⟨s₀.prefixPos, ?_⟩
  rw [hmatch, hcl]
  have hnl : s₀.node.length = s₀.prefixPos := by
    rw [hinv.node_eq, length_take]
    exact Nat.min_eq_left hinv.pos_le
  refine ⟨hcom.reshape.trans hre, ⟨rfl, rfl, rfl, rfl, rfl⟩, hlong, ?_, ?_, hbest,
    hsame.isAddress hcom.bestAddress, (hsame.reusable_iff hcom.wf hwf' hcom.bestAddress).mpr
      hcom.bestReusable, ?_, ?_⟩
  · have := hsame.isAddress hcom.address
    rw [hcom.node_eq, hpp] at this
    exact this
  · have := hcom.best_prefix.length_le
    rw [hnode, hnl] at this
    exact this
  · intro k hk hak hrk
    have hak' : IsAddress s.nodes (ids.take k) := hsame.symm.isAddress hak
    have hkl : (ids.take k).length = k := by
      have := hlong.le
      rw [length_take]
      omega
    have := hmax (ids.take k) ?_ (hn ▸ hak')
      (hn ▸ (hsame.reusable_iff hcom.wf hwf' hak').mp hrk)
    · rwa [hkl] at this
    · rw [hinv.node_eq]
      exact take_prefix_take_left hk
  · rw [hkv]
    exact (hsame.getMatchedIndices_eq hcom.wf hwf' hcom.bestAddress).symm

end SWARadixCache

end FreeToken
