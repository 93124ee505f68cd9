import FreeToken.KvCache.Equiv.SWAMatch

/-!
# `SWARadixCache.insert`

* `Revives`: what the walk of `insert` may do to the nodes, namely cut them in two and let unlocked
  tombstones adopt slots.
* `Adopts`: the slots offered to a tree are, one for one, adopted by it or freed, along with the
  slots they displace.
* `SWARadixCache.reconcile_spec`: each branch of `insert` at a matched node is of that kind.
* `SWARadixCache.insert_spec`: **`insert` keeps the invariant, and accounts for every slot** it is
  handed.
-/

namespace FreeToken

open List TrieEdge RadixTreeNode SWARadixCache

variable {ps : ℕ} {locks : List SwaLock} {nodes nodes' : List RadixTreeNode} {n n' : RadixTreeNode}

/-! ### Window copies and tombstoned leaves -/

/-- The number of times a node holds a slot whose window copy is live. -/
def liveCount (x : Slot) (n : RadixTreeNode) : ℤ := if n.swaTombstone then 0 else slotCount x n

theorem splits_liveCount (x : Slot) : Splits ps (liveCount x) where
  stamp _ _ := rfl
  split n pos hc := by
    have h := (splits_slotCount x).split n pos hc
    have ht₁ : (n.splitAt pos).1.swaTombstone = n.swaTombstone := rfl
    have ht₂ : (n.splitAt pos).2.swaTombstone = n.swaTombstone := rfl
    unfold liveCount
    rw [ht₁, ht₂]
    split <;> omega

abbrev NoTombstoneLeaf (nodes : List RadixTreeNode) : Prop := LeavesAlive isTombstone nodes

/-! ### Boundaries that stay live -/

/-- A node boundary that is live stays so while it is one. -/
def LivePersists (nodes nodes' : List RadixTreeNode) : Prop :=
  ∀ n ∈ nodes, n.swaTombstone = false → ∀ n' ∈ nodes', stop n' = stop n → n'.swaTombstone = false

namespace LivePersists

theorem refl (h : WF ps nodes) : LivePersists nodes nodes := fun _ hn hlive _ hm hmn =>
  h.trie.stop_inj hm hn hmn ▸ hlive

theorem trans {nodes'' : List RadixTreeNode} (h : LivePersists nodes nodes')
    (h' : LivePersists nodes' nodes'')
    (hmono : ∀ a, IsAddress nodes a → IsAddress nodes' a) (hw : WF ps nodes) :
    LivePersists nodes nodes'' := by
  intro n hn hlive n' hn' hst
  rcases hmono _ (isAddress_stop hn) with h0 | ⟨m, hm, hmn⟩
  · exact absurd h0 (hw.trie.stop_ne_nil hn)
  · exact h' m hm (h n hn hlive m hm hmn) n' hn' (hst.trans hmn.symm)

protected theorem setNode (h : WF ps nodes) (hn : n ∈ nodes) (hs : n'.start = n.start)
    (hk : n'.key = n.key) (ht : n.swaTombstone = false → n'.swaTombstone = false) :
    LivePersists nodes (setNode nodes n n') := by
  intro m hm hlive m' hm' hst
  rcases (h.mem_setNode hn).mp hm' with rfl | ⟨hm', -⟩
  · have : n = m := h.trie.stop_inj hn hm (by rw [← hst]; simp [stop, hs, hk])
    exact ht (this ▸ hlive)
  · rwa [h.trie.stop_inj hm' hm hst]

protected theorem splitNode (h : WF ps nodes) (hn : n ∈ nodes) {pos : ℕ} (hc : CutAt ps n pos) :
    LivePersists nodes (splitNode nodes n pos) := by
  intro m hm hlive m' hm' hst
  rcases (h.mem_splitNode hn).mp hm' with rfl | rfl | ⟨hm', -⟩
  · exact absurd (hst ▸ isAddress_stop hm) (h.not_isAddress_splitAt hn hc)
  · rw [stop_splitAt_snd] at hst
    rw [← h.trie.stop_inj hn hm hst] at hlive
    exact hlive
  · rwa [h.trie.stop_inj hm' hm hst]

theorem reshape (h : WF ps nodes) (hr : Reshape ps nodes nodes') : LivePersists nodes nodes' := by
  induction hr with
  | refl => exact .refl h
  | tail hr hs ih =>
    refine ih.trans ?_ (fun a ha => Reshape.isAddress hr h ha) h
    cases hs with
    | stamp hn t => exact .setNode (Reshape.wf hr h) hn (by rfl) (by rfl) id
    | split hn hc => exact .splitNode (Reshape.wf hr h) hn hc

theorem append {ns : List RadixTreeNode} (h : WF ps (nodes ++ ns)) :
    LivePersists nodes (nodes ++ ns) := fun _ hn hlive _ hm hmn =>
  h.trie.stop_inj hm (mem_append_left _ hn) hmn ▸ hlive

end LivePersists

theorem NoTombstoneLeaf.reshape (hno : NoTombstoneLeaf nodes) (h : WF ps nodes)
    (hr : Reshape ps nodes nodes') : NoTombstoneLeaf nodes' :=
  LeavesAlive.reshape hno (fun _ _ => rfl) (fun _ _ => rfl) h hr

/-! ### Cutting and reviving -/

/-- One edit of the walk of `insert`: cut a node in two, or let an unlocked tombstone adopt
slots. -/
inductive ReviveStep (ps : ℕ) : List RadixTreeNode → List RadixTreeNode → Prop
  | split {nodes : List RadixTreeNode} {n : RadixTreeNode} (hn : n ∈ nodes) {pos : ℕ}
      (hc : CutAt ps n pos) : ReviveStep ps nodes (splitNode nodes n pos)
  | revive {nodes : List RadixTreeNode} {n : RadixTreeNode} (hn : n ∈ nodes)
      (ht : n.swaTombstone = true) (h0 : n.refCount = 0) {kv : List Slot}
      (hkv : kv.length = n.length) (t : ℤ) : ReviveStep ps nodes
        (setNode nodes n { n with value := kv, swaTombstone := false, timestamp := t })

/-- What the walk of `insert` may do to the nodes. -/
abbrev Revives (ps : ℕ) : List RadixTreeNode → List RadixTreeNode → Prop :=
  Relation.ReflTransGen (ReviveStep ps)

theorem resident_setNode (h : WF ps nodes) (hn : n ∈ nodes) (hs : n'.start = n.start)
    (hk : n'.key = n.key) {p : Path} : Resident (setNode nodes n n') p ↔ Resident nodes p := by
  have hstop : stop n' = stop n := by simp [stop, hs, hk]
  constructor
  · rintro ⟨m, hm, hlt, hpre⟩
    rcases (h.mem_setNode hn).mp hm with rfl | ⟨hm, -⟩
    · exact ⟨n, hn, by rwa [start_eq, ← hs], hstop ▸ hpre⟩
    · exact ⟨m, hm, hlt, hpre⟩
  · rintro ⟨m, hm, hlt, hpre⟩
    by_cases hmn : m = n
    · subst hmn
      exact ⟨n', (h.mem_setNode hn).mpr (Or.inl rfl), by rwa [start_eq, hs], hstop ▸ hpre⟩
    · exact ⟨m, (h.mem_setNode hn).mpr (Or.inr ⟨hm, hmn⟩), hlt, hpre⟩

namespace ReviveStep

theorem wf (hr : ReviveStep ps nodes nodes') (h : WF ps nodes) : WF ps nodes' := by
  cases hr with
  | split hn hc => exact h.splitNode hn hc
  | revive hn ht h0 hkv t => exact h.setNode hn rfl rfl (by rw [h.value_len _ hn]; exact hkv)

theorem isAddress (hr : ReviveStep ps nodes nodes') (h : WF ps nodes) {p : Path}
    (hp : IsAddress nodes p) : IsAddress nodes' p := by
  cases hr with
  | split hn hc => exact h.isAddress_splitNode hn _ hp
  | revive hn ht h0 hkv t => exact h.isAddress_setNode hn (by rfl) (by rfl) hp

theorem resident_iff (hr : ReviveStep ps nodes nodes') (h : WF ps nodes) {p : Path}
    (hp : ps ∣ p.length) : Resident nodes' p ↔ Resident nodes p := by
  cases hr with
  | split hn hc => exact Reshape.resident_iff (.single (.split hn hc)) h hp
  | revive hn ht h0 hkv t => exact resident_setNode h hn (by rfl) (by rfl)

theorem noTombstoneLeaf (hr : ReviveStep ps nodes nodes') (h : WF ps nodes)
    (hno : NoTombstoneLeaf nodes) : NoTombstoneLeaf nodes' := by
  cases hr with
  | split hn hc => exact LeavesAlive.splitNode hno h hn hc rfl
  | revive hn ht h0 hkv t =>
    exact LeavesAlive.setNode hno h hn (by rfl) (by rfl) (by simp [isTombstone])

theorem livePersists (hr : ReviveStep ps nodes nodes') (h : WF ps nodes) :
    LivePersists nodes nodes' := by
  cases hr with
  | split hn hc => exact .splitNode h hn hc
  | revive hn ht h0 hkv t => exact .setNode h hn (by rfl) (by rfl) fun _ => rfl

end ReviveStep

namespace Revives

theorem wf (hr : Revives ps nodes nodes') (h : WF ps nodes) : WF ps nodes' := by
  induction hr with
  | refl => exact h
  | tail _ hs ih => exact hs.wf ih

theorem isAddress (hr : Revives ps nodes nodes') (h : WF ps nodes) {p : Path}
    (hp : IsAddress nodes p) : IsAddress nodes' p := by
  induction hr with
  | refl => exact hp
  | tail hr hs ih => exact hs.isAddress (wf hr h) ih

theorem resident_iff (hr : Revives ps nodes nodes') (h : WF ps nodes) {p : Path}
    (hp : ps ∣ p.length) : Resident nodes' p ↔ Resident nodes p := by
  induction hr with
  | refl => rfl
  | tail hr hs ih => rw [hs.resident_iff (wf hr h) hp, ih]

theorem isLongest_iff (hr : Revives ps nodes nodes') (h : WF ps nodes) {ids : List Token} {m : ℕ} :
    IsLongest ps (Resident nodes') ids m ↔ IsLongest ps (Resident nodes) ids m := by
  have hres : ∀ k, ps ∣ k → k ≤ ids.length →
      (Resident nodes' (ids.take k) ↔ Resident nodes (ids.take k)) := fun k hk hle =>
    hr.resident_iff h (by rwa [length_take, min_eq_left hle])
  exact ⟨fun hl => hl.congr fun k hk hle => (hres k hk hle).symm, fun hl => hl.congr hres⟩

theorem noTombstoneLeaf (hr : Revives ps nodes nodes') (h : WF ps nodes)
    (hno : NoTombstoneLeaf nodes) : NoTombstoneLeaf nodes' := by
  induction hr with
  | refl => exact hno
  | tail hr hs ih => exact hs.noTombstoneLeaf (wf hr h) ih

theorem livePersists (hr : Revives ps nodes nodes') (h : WF ps nodes) :
    LivePersists nodes nodes' := by
  induction hr with
  | refl => exact .refl h
  | tail hr hs ih =>
    exact ih.trans (hs.livePersists (wf hr h)) (fun a ha => isAddress hr h ha) h

end Revives

/-! ### Offering slots -/

/-- The slots `offered` to a tree are adopted by it or freed, one for one, along with the slots
they displace; the window copies of those in `made` have become live. -/
structure Adopts (locks : List SwaLock) (c c' : SWARadixCache) (offered freed made : List Slot) :
    Prop where
  inv : SwaInv c.pageSize locks c'.nodes c'.full c'.swa c'.uuid
  fields : c'.pageSize = c.pageSize ∧ c'.slidingWindowSize = c.slidingWindowSize ∧
    c'.uuid = c.uuid ∧ c'.full = c.full
  revives : Revives c.pageSize c.nodes c'.nodes
  slots : ∀ x, total (slotCount x) c'.nodes + (freed.count x : ℕ) =
    total (slotCount x) c.nodes + (offered.count x : ℕ)
  live : ∀ x, total (liveCount x) c'.nodes = total (liveCount x) c.nodes + (made.count x : ℕ)
  sub : made.Sublist offered

namespace Adopts

variable {c c' c'' : SWARadixCache} {offered freed made offered' freed' made' : List Slot}

/-- The offered slots are all dropped. -/
theorem drop (h : SwaInv c.pageSize locks c.nodes c.full c.swa c.uuid) (seg : List Slot) :
    Adopts locks c c seg seg [] where
  inv := h
  fields := ⟨rfl, rfl, rfl, rfl⟩
  revives := .refl
  slots _ := rfl
  live _ := by simp
  sub := nil_sublist _

theorem refl (h : SwaInv c.pageSize locks c.nodes c.full c.swa c.uuid) :
    Adopts locks c c [] [] [] :=
  drop h []

theorem trans (h : Adopts locks c c' offered freed made)
    (h' : Adopts locks c' c'' offered' freed' made') :
    Adopts locks c c'' (offered ++ offered') (freed ++ freed') (made ++ made') where
  inv := h.fields.1 ▸ h'.inv
  fields := by
    obtain ⟨h₁, h₂, h₃, h₄⟩ := h.fields
    obtain ⟨g₁, g₂, g₃, g₄⟩ := h'.fields
    exact ⟨g₁.trans h₁, g₂.trans h₂, g₃.trans h₃, g₄.trans h₄⟩
  revives := h.revives.trans (h.fields.1 ▸ h'.revives)
  slots x := by
    have h₁ := h.slots x
    have h₂ := h'.slots x
    rw [count_append, count_append]
    push_cast
    omega
  live x := by
    rw [h'.live x, h.live x, count_append]
    push_cast
    ring
  sub := h.sub.append h'.sub

theorem split (h : SwaInv c.pageSize locks c.nodes c.full c.swa c.uuid) (hn : n ∈ c.nodes) {pos : ℕ}
    (hc : CutAt c.pageSize n pos) :
    Adopts locks c { c with nodes := splitNode c.nodes n pos } [] [] [] where
  inv := h.splitNode hn hc
  fields := ⟨rfl, rfl, rfl, rfl⟩
  revives := .single (.split hn hc)
  slots x := by
    have : Reshape c.pageSize c.nodes (splitNode c.nodes n pos) := .single (.split hn hc)
    simp [this.total_eq h.wf (splits_slotCount x)]
  live x := by
    have : Reshape c.pageSize c.nodes (splitNode c.nodes n pos) := .single (.split hn hc)
    simp [this.total_eq h.wf (splits_liveCount x)]
  sub := List.Sublist.refl _

theorem revive (h : SwaInv c.pageSize locks c.nodes c.full c.swa c.uuid) (hn : n ∈ c.nodes)
    (ht : n.swaTombstone = true) (h0 : n.refCount = 0) {kv : List Slot}
    (hkv : kv.length = n.length) :
    Adopts locks c (c.revive n kv) kv n.value kv := by
  obtain ⟨t, htick⟩ : ∃ t, t = ((c.clk + 1 : ℕ) * eventStride : ℤ) := ⟨_, rfl⟩
  obtain ⟨n', hn'⟩ : ∃ n', n' = { n with value := kv, swaTombstone := false, timestamp := t } :=
    ⟨_, rfl⟩
  have hrev : c.revive n kv = { c with clk := c.clk + 1, nodes := setNode c.nodes n n'
                                       swa := { c.swa with
                                         evictable := c.swa.evictable + n.length } } := by
    rw [hn', htick]
    rfl
  have hs0 := h.swaRef_of_tombstone hn ht
  have hold : swaEvictableTokens n = 0 := by simp [swaEvictableTokens, ht]
  have hnew : swaEvictableTokens n' = n.length := by
    rw [hn']
    simp [swaEvictableTokens, hs0, RadixTreeNode.length]
  have hlen : n'.value.length = n.value.length := by
    rw [h.wf.value_len n hn, hn']
    exact hkv
  have hset := h.setNode hn (by rw [hn']) (by rw [hn']) hlen (by rw [hn']) (by rw [hn'])
    (by rw [hn']) (Or.inr (Or.inr h0))
  rw [hold, hnew, sub_zero] at hset
  rw [hrev]
  refine ⟨hset, ⟨rfl, rfl, rfl, rfl⟩, .single (by rw [hn']; exact .revive hn ht h0 hkv t), ?_, ?_,
    List.Sublist.refl _⟩
  · intro x
    have h₁ : slotCount x n' = (kv.count x : ℕ) := by rw [hn']; rfl
    have h₂ : slotCount x n = (n.value.count x : ℕ) := rfl
    rw [h.wf.total_setNode hn, h₁, h₂]
    ring
  · intro x
    have h₁ : liveCount x n' = (kv.count x : ℕ) := by rw [hn']; rfl
    have h₂ : liveCount x n = 0 := by simp [liveCount, ht]
    rw [h.wf.total_setNode hn, h₁, h₂]
    ring

end Adopts

/-! ### One matched node -/

namespace SWARadixCache

variable {c : SWARadixCache}

/-- Every branch of `insert` at a matched node adopts the slots offered for it or frees them. -/
theorem reconcile_spec (h : SwaInv c.pageSize locks c.nodes c.full c.swa c.uuid) (hn : n ∈ c.nodes)
    {seg : List Slot} (hseg : seg.length = n.length) {t e : ℕ} (ht : c.pageSize ∣ t)
    (he : c.pageSize ∣ e) :
    ∃ made, Adopts locks c (c.reconcile n seg t e).1 seg (c.reconcile n seg t e).2 made := by
  unfold reconcile
  cases htomb : n.swaTombstone with
  | false => exact ⟨[], by simpa using Adopts.drop h seg⟩
  | true =>
    simp only [if_true]
    by_cases href : 0 < n.refCount
    · rw [if_pos href]
      exact ⟨[], Adopts.drop h seg⟩
    rw [if_neg href]
    have h0 : n.refCount = 0 := le_antisymm (not_lt.mp href) (h.kv.ref_nonneg hn)
    by_cases hle : e ≤ t
    · rw [if_pos hle]
      exact ⟨seg, Adopts.revive h hn htomb h0 hseg⟩
    rw [if_neg hle]
    by_cases hlt : e < t + n.length
    swap
    · rw [if_neg hlt]
      exact ⟨[], Adopts.drop h seg⟩
    rw [if_pos hlt]
    -- the frontier falls inside the node: the part above it stays a tombstone
    have hcut : CutAt c.pageSize n (e - t) := ⟨by omega, by omega, Nat.dvd_sub he ht⟩
    have hsplit := Adopts.split h hn hcut
    have hmem : (n.splitAt (e - t)).2 ∈ splitNode c.nodes n (e - t) :=
      (h.wf.mem_splitNode hn).mpr (Or.inr (Or.inl rfl))
    have hlen : (seg.drop (e - t)).length = (n.splitAt (e - t)).2.length := by
      have h₁ := length_splitAt n (e - t)
      rw [length_splitAt_fst hcut] at h₁
      rw [length_drop]
      omega
    have hrev := Adopts.revive (c := { c with nodes := splitNode c.nodes n (e - t) })
      hsplit.inv hmem htomb h0 hlen
    obtain ⟨h₁, h₂, h₃, h₄, h₅, h₆⟩ := hsplit.trans hrev
    refine ⟨seg.drop (e - t), h₁, h₂, h₃, fun x => ?_, by simpa using h₅, drop_sublist _ _⟩
    have hcount := h₄ x
    have hsum : (seg.count x : ℤ) = (seg.take (e - t)).count x + (seg.drop (e - t)).count x := by
      rw [← Nat.cast_add, ← count_append, take_append_drop]
    rw [count_append]
    simp only [nil_append] at hcount
    push_cast
    omega

/-! ### The walk of `insert` -/

/-- `insert` leaves the slots of the first `b` positions alone: `b` is the last boundary of the
matched path, which is `m` long, at or before `updateKvAfterLen`. -/
structure KeepsTo (nodes : List RadixTreeNode) (ids : List Token) (updateKvAfterLen m b : ℕ) :
    Prop where
  le : b ≤ updateKvAfterLen
  le_matched : b ≤ m
  boundary : b = m ∨ IsAddress nodes (ids.take b)
  max : ∀ k ≤ m, k ≤ updateKvAfterLen → (k = m ∨ IsAddress nodes (ids.take k)) → k ≤ b

/-- The loop invariant of `insert`. -/
structure InsertInv (locks : List SwaLock) (c₀ : SWARadixCache) (ids : List Token) (kv : List Slot)
    (updateKvAfterLen b : ℕ) (s : InsertState) (made : List Slot) : Prop where
  adopts : Adopts locks c₀ s.cache ((kv.take s.total).drop b) s.freed made
  le : s.total ≤ ids.length
  node_eq : s.node = ids.take s.total
  address : IsAddress s.cache.nodes s.node
  kept : s.total ≤ updateKvAfterLen → s.total ≤ b

variable {c₀ : SWARadixCache} {ids : List Token} {kv made : List Slot} {e p b m : ℕ}
  {s : InsertState}

theorem InsertInv.swaInv (h : InsertInv locks c₀ ids kv p b s made) :
    SwaInv s.cache.pageSize locks s.cache.nodes s.cache.full s.cache.swa s.cache.uuid :=
  h.adopts.fields.1 ▸ h.adopts.inv

theorem InsertInv.dvd_total (h : InsertInv locks c₀ ids kv p b s made) :
    s.cache.pageSize ∣ s.total := by
  have hlen : (ids.take s.total).length = s.total := by
    rw [length_take]
    exact min_eq_left h.le
  rw [← hlen, ← h.node_eq]
  exact h.swaInv.wf.trie.dvd_address h.address

/-- One matched node. -/
theorem insertStep_spec (hw : WF c₀.pageSize c₀.nodes) (hkv : kv.length = ids.length)
    (he : c₀.pageSize ∣ e) (hb : KeepsTo c₀.nodes ids p m b)
    (h : InsertInv locks c₀ ids kv p b s made) (hn : n ∈ s.cache.nodes) (hs : n.start = s.node)
    (hstop : stop n = ids.take (s.total + n.length)) (hle : s.total + n.length ≤ m)
    (hm : m ≤ ids.length) (hk : s.total + n.length ≤ p → s.total + n.length ≤ b) :
    ∃ made', InsertInv locks c₀ ids kv p b (insertStep kv e p s n) made' := by
  have hps := h.adopts.fields.1
  have hmono : ∀ {c' : SWARadixCache}, Revives s.cache.pageSize s.cache.nodes c'.nodes →
      IsAddress c'.nodes (stop n) := fun hr => hr.isAddress h.swaInv.wf (isAddress_stop hn)
  by_cases hp : p < s.total + n.length
  · -- the node ends in the fresh region, which starts at its upper end or above
    have hbt : b ≤ s.total := by
      have hbp := hb.le
      by_contra hgt
      rcases hb.boundary with hbm | hab
      · omega
      · have hlen : (ids.take b).length = b := by
          have := hb.le_matched
          rw [length_take]
          omega
        have hin := length_of_address_inside h.swaInv.wf hn (h.adopts.revives.isAddress hw hab)
          (by rw [hs, h.node_eq, hlen, length_take]; omega)
          (by rw [hstop]; exact take_prefix_take_left (by omega))
        rw [hstop] at hin
        have := congrArg List.length hin
        rw [hlen, length_take] at this
        omega
    have hseg : ((kv.drop s.total).take n.length).length = n.length := by
      rw [length_take, length_drop]
      omega
    obtain ⟨made', hrec⟩ := reconcile_spec h.swaInv hn hseg h.dvd_total (hps ▸ he)
    have hall := h.adopts.trans hrec
    refine ⟨made ++ made', ?_⟩
    unfold insertStep
    simp only [if_pos hp]
    refine ⟨?_, by simp only; omega, hstop, hmono hrec.revives, hk⟩
    rw [take_add, drop_append_of_le_length (by rw [length_take, hkv]; omega)]
    exact hall
  · refine ⟨made, ?_⟩
    unfold insertStep
    simp only [if_neg hp, append_nil]
    refine ⟨?_, by simp only; omega, hstop, isAddress_stop hn, hk⟩
    -- the node lies in the part that is left alone
    have hkb := hk (by omega)
    have hnil : ∀ {k : ℕ}, k ≤ b → (kv.take k).drop b = [] := fun hkb => by
      rw [drop_eq_nil_iff, length_take]
      omega
    have := h.adopts
    rw [hnil (by omega)] at this
    rwa [hnil hkb]

theorem insertLoop_spec (hw : WF c₀.pageSize c₀.nodes) (hkv : kv.length = ids.length)
    (he : c₀.pageSize ∣ e) (hb : KeepsTo c₀.nodes ids p m b)
    (hl : IsLongest c₀.pageSize (Resident c₀.nodes) ids m) :
    ∀ (fuel : ℕ) (s : InsertState) (made : List Slot), InsertInv locks c₀ ids kv p b s made →
      (s.total ≤ p → s.cache.nodes = c₀.nodes) → ids.length ≤ s.total + fuel →
      ∃ made', InsertInv locks c₀ ids kv p b (insertLoop ids kv e p fuel s) made' ∧
        (insertLoop ids kv e p fuel s).total = m := by
  intro fuel
  have longest : ∀ {s : InsertState} {made : List Slot} {k : ℕ},
      InsertInv locks c₀ ids kv p b s made →
      IsLongest s.cache.pageSize (Resident s.cache.nodes) ids k → k = m := fun h hk =>
    ((h.adopts.revives.isLongest_iff hw).mp (h.adopts.fields.1 ▸ hk)).unique hl
  -- a walk that used up the ids has matched them all
  have exhausted : ∀ {s : InsertState} {made : List Slot}, InsertInv locks c₀ ids kv p b s made →
      s.total = ids.length → s.total = m := by
    intro s made h ht
    refine longest h ?_
    have ha := h.address
    rw [h.node_eq, ht, take_length] at ha
    rw [ht]
    exact h.swaInv.wf.trie.isLongest_of_exhausted ha
  induction fuel with
  | zero =>
    intro s made h _ hf
    have := h.le
    exact ⟨made, h, exhausted (s := s) h (by omega)⟩
  | succ fuel ih =>
    intro s made h hsame hf
    have hle := h.le
    unfold insertLoop
    by_cases hlt : s.total < ids.length
    swap
    · rw [if_neg hlt]
      exact ⟨made, h, exhausted h (by omega)⟩
    rw [if_pos hlt]
    cases hc : childAt s.cache.pageSize s.cache.nodes s.node (ids.drop s.total) with
    | none =>
      rw [h.node_eq] at hc
      exact ⟨made, h, longest h
        (h.swaInv.wf.trie.isLongest_of_childAt_none hle (h.node_eq ▸ h.address) hc)⟩
    | some child =>
      rw [h.node_eq] at hc
      obtain ⟨hmem, hs, j, hj, hj0, hkj, hcase⟩ := walk_enter h.swaInv.wf hle hc
      rw [← h.node_eq] at hs
      simp only [← hj, if_neg hj0.ne']
      rcases hcase with ⟨hpart, hcut, hstop, hlong⟩ | ⟨rfl, hstop⟩
      · -- the match ends inside the child: cut it there, and it is the last
        rw [if_pos hpart]
        have hlen := length_splitAt_fst hcut
        have hjm := longest h hlong
        have hsplit := Adopts.split h.swaInv hmem hcut
        have hinv : InsertInv locks c₀ ids kv p b
            { s with cache := { s.cache with nodes := splitNode s.cache.nodes child j } } made := by
          refine ⟨?_, hle, h.node_eq, h.swaInv.wf.isAddress_splitNode hmem j h.address, h.kept⟩
          simpa using h.adopts.trans hsplit
        obtain ⟨made', hinv'⟩ := insertStep_spec hw hkv he hb hinv
          ((h.swaInv.wf.mem_splitNode hmem).mpr (Or.inl rfl)) hs (by rw [hlen]; exact hstop)
          (by rw [hlen]; exact hjm.le) hl.le
          (fun hp => by rw [hlen] at hp ⊢; exact hb.max _ hjm.le hp (Or.inl hjm))
        refine ⟨made', hinv', ?_⟩
        unfold insertStep
        simp only [hlen, hjm]
      · -- the whole child is matched: go on below it
        rw [if_neg (lt_irrefl _)]
        have hres : IsLongest s.cache.pageSize (Resident s.cache.nodes) ids m :=
          h.adopts.fields.1 ▸ (h.adopts.revives.isLongest_iff hw).mpr hl
        have hjm : s.total + child.length ≤ m := by
          refine hres.max _ ?_ hkj (hstop ▸ h.swaInv.wf.trie.resident_stop hmem)
          have := h.swaInv.wf.trie.dvd_stop hmem
          rwa [hstop, length_take, min_eq_left hkj] at this
        have hkeep : s.total + child.length ≤ p → s.total + child.length ≤ b := fun hp =>
          hb.max _ hjm hp (Or.inr (hstop ▸ isAddress_stop (hsame (by omega) ▸ hmem)))
        obtain ⟨made', hinv'⟩ := insertStep_spec hw hkv he hb h hmem hs hstop hjm hl.le hkeep
        refine ih _ made' hinv' (fun hp => ?_) ?_
        · unfold insertStep at hp ⊢
          simp only at hp
          simp only [if_neg (not_lt.mpr hp)]
          exact hsame (by omega)
        · unfold insertStep
          simp only
          omega

/-! ### The new suffix -/

/-- New leaves are linked, with the slots `added`, those of them in `made` live. -/
structure Grows (locks : List SwaLock) (c c' : SWARadixCache) (added made : List Slot) : Prop where
  inv : SwaInv c.pageSize locks c'.nodes c'.full c'.swa c'.uuid
  fields : c'.pageSize = c.pageSize ∧ c'.slidingWindowSize = c.slidingWindowSize ∧
    c'.uuid = c.uuid
  keeps : ∃ ns, c'.nodes = c.nodes ++ ns
  slots : ∀ x, total (slotCount x) c'.nodes = total (slotCount x) c.nodes + (added.count x : ℕ)
  live : ∀ x, total (liveCount x) c'.nodes = total (liveCount x) c.nodes + (made.count x : ℕ)
  sub : made.Sublist added

theorem Grows.trans {c' c'' : SWARadixCache} {added made added' made' : List Slot}
    (h : Grows locks c c' added made) (h' : Grows locks c' c'' added' made') :
    Grows locks c c'' (added ++ added') (made ++ made') where
  inv := h.fields.1 ▸ h'.inv
  fields := by
    obtain ⟨h₁, h₂, h₃⟩ := h.fields
    obtain ⟨g₁, g₂, g₃⟩ := h'.fields
    exact ⟨g₁.trans h₁, g₂.trans h₂, g₃.trans h₃⟩
  keeps := by
    obtain ⟨ns, hns⟩ := h.keeps
    obtain ⟨ns', hns'⟩ := h'.keeps
    exact ⟨ns ++ ns', by rw [hns', hns, append_assoc]⟩
  slots x := by
    rw [h'.slots x, h.slots x, count_append]
    push_cast
    ring
  live x := by
    rw [h'.live x, h.live x, count_append]
    push_cast
    ring
  sub := h.sub.append h'.sub

/-- `_add_child` links an unlocked leaf. -/
theorem addChild_spec (h : SwaInv c.pageSize locks c.nodes c.full c.swa c.uuid) {a : Path}
    (ha : IsAddress c.nodes a) (ids : List Token) (kv : List Slot) (hne : ids ≠ [])
    (hd : c.pageSize ∣ ids.length) (hkv : kv.length = ids.length)
    (hnew : ∀ m ∈ c.nodes, m.start = a → m.key.take c.pageSize ≠ ids.take c.pageSize)
    (tombstone : Bool) :
    ∃ n : RadixTreeNode, (c.addChild a ids kv tombstone).1.nodes = c.nodes ++ [n] ∧
      (c.addChild a ids kv tombstone).2 = stop n ∧ n.start = a ∧ n.key = ids ∧
      n.swaTombstone = tombstone ∧ WF c.pageSize (c.nodes ++ [n]) ∧
      Grows locks c (c.addChild a ids kv tombstone).1 kv (if tombstone then [] else kv) := by
  obtain ⟨n, hn⟩ : ∃ n : RadixTreeNode, n = ⟨a, ids, kv, ((c.clk + 1 : ℕ) * eventStride : ℤ), 0,
    none, 0, tombstone, 0, none⟩ := ⟨_, rfl⟩
  have hwf : WF c.pageSize (c.nodes ++ [n]) := by
    refine h.wf.link ?_ ?_ ?_ ?_ ?_ <;> rw [hn]
    · exact ha
    · exact hne
    · exact hd
    · exact hkv
    · exact hnew
  -- the new leaf has no locks, so it counts as evictable
  have hlink := h.link hwf (by rw [hn]) (by rw [hn]) (by rw [hn])
  have hadd : c.addChild a ids kv tombstone = ({ c with
      clk := c.clk + 1, nodes := c.nodes ++ [n]
      full := { c.full with evictable := c.full.evictable + n.length }
      swa := if tombstone then c.swa
        else { c.swa with evictable := c.swa.evictable + n.length } }, stop n) := by
    rw [hn]
    rfl
  rw [hadd]
  refine ⟨n, rfl, rfl, by rw [hn], by rw [hn], by rw [hn], hwf, ?_, ⟨rfl, rfl, rfl⟩, ⟨[n], rfl⟩,
    ?_, ?_, ?_⟩
  · cases tombstone with
    | true =>
      have : swaEvictableTokens n = 0 := by simp [swaEvictableTokens, hn]
      rw [this, add_zero] at hlink
      exact hlink
    | false =>
      have : swaEvictableTokens n = n.length := by simp [swaEvictableTokens, hn]
      rw [this] at hlink
      exact hlink
  · intro x
    have : slotCount x n = (kv.count x : ℕ) := by rw [hn]; rfl
    rw [total_append, total_cons, total_nil, add_zero, this]
  · intro x
    have : liveCount x n = ((if tombstone then [] else kv).count x : ℕ) := by
      rw [hn]
      cases tombstone <;> simp [liveCount, slotCount]
    rw [total_append, total_cons, total_nil, add_zero, this]
  · cases tombstone
    · exact List.Sublist.refl _
    · exact nil_sublist _

/-- The suffix of `insert` that is not in the tree yet becomes a live leaf, below a tombstone if
part of it is out of the window. -/
theorem addSuffix_spec (h : SwaInv c.pageSize locks c.nodes c.full c.swa c.uuid) {a : Path}
    (ha : IsAddress c.nodes a) (ids : List Token) (kv : List Slot) (hne : ids ≠ [])
    (hd : c.pageSize ∣ ids.length) (hkv : kv.length = ids.length)
    (hnew : ∀ m ∈ c.nodes, m.start = a → m.key.take c.pageSize ≠ ids.take c.pageSize)
    (boundary : ℕ) (hb : c.pageSize ∣ boundary) :
    ∃ made, Grows locks c (c.addSuffix a ids kv boundary) kv made ∧
      IsAddress (c.addSuffix a ids kv boundary).nodes (a ++ ids) ∧
      (NoTombstoneLeaf c.nodes → NoTombstoneLeaf (c.addSuffix a ids kv boundary).nodes) := by
  have hps := h.wf.trie.page_pos
  have hpos : 0 < ids.length := length_pos_iff.mpr hne
  have hple : c.pageSize ≤ ids.length := Nat.le_of_dvd hpos hd
  obtain ⟨k, hk⟩ : ∃ k, k = min boundary (ids.length - c.pageSize) := ⟨_, rfl⟩
  have hkd : c.pageSize ∣ k := by
    rcases Nat.le_total boundary (ids.length - c.pageSize) with hle | hle
    · rwa [hk, min_eq_left hle]
    · rw [hk, min_eq_right hle]
      exact Nat.dvd_sub hd (dvd_refl _)
  have hlen : (ids.drop k).length ≠ 0 := by rw [length_drop]; omega
  have hrest : c.pageSize ∣ (ids.drop k).length := by
    rw [length_drop]
    exact Nat.dvd_sub hd hkd
  unfold addSuffix
  simp only [← hk, if_pos hlen]
  by_cases hk0 : 0 < k
  · -- a tombstone above the window frontier, and the live leaf below it
    simp only [if_pos hk0]
    have hlt : (ids.take k).length = k := by rw [length_take]; omega
    have hkp : c.pageSize ≤ k := Nat.le_of_dvd hk0 hkd
    obtain ⟨t, ht, hts, hst, hkt, htt, hwt, hgt⟩ := addChild_spec h ha (ids.take k) (kv.take k)
      (by rw [Ne, take_eq_nil_iff]; simp [hk0.ne', hne]) (by rwa [hlt])
      (by rw [length_take, length_take, hkv]) (by rw [take_take, min_eq_left hkp]; exact hnew) true
    obtain ⟨c₁, hc₁⟩ : ∃ c₁, c₁ = (c.addChild a (ids.take k) (kv.take k) true).1 := ⟨_, rfl⟩
    rw [← hc₁] at ht hgt ⊢
    rw [hts]
    have hp₁ := hgt.fields.1
    have hstop : stop t = a ++ ids.take k := by
      simp only [stop, start_eq, key_eq, hst, hkt]
    obtain ⟨l, hl, hls, hsl, hkl, hlt', hwl, hgl⟩ := addChild_spec (c := c₁) (a := stop t)
      (hp₁ ▸ hgt.inv) (by rw [ht]; exact isAddress_stop (by simp)) (ids.drop k) (kv.drop k)
      (length_pos_iff.mp (by omega)) (by rwa [hp₁]) (by rw [length_drop, length_drop, hkv]) (by
        -- nothing hangs below the tombstone yet
        intro m hm hms
        rw [ht] at hm
        exfalso
        rcases mem_append.mp hm with hm | hm
        · exact h.wf.not_prefix_of_link hwt (h.wf.trie.parent m hm) (by rw [start_eq, hms])
        · rw [mem_singleton.mp hm] at hms
          exact not_stop_prefix_start hwt (n := t) (by simp) (by rw [hms])) false
    refine ⟨kv.drop k, ?_, ?_, fun hno => ?_⟩
    · have := hgt.trans hgl
      simp only [take_append_drop, if_true, Bool.false_eq_true, if_false, nil_append] at this
      exact this
    · rw [hl]
      have hstop' : stop l = a ++ ids := by
        have : stop l = l.start ++ l.key := rfl
        rw [this, hsl, hkl, hstop, append_assoc, take_append_drop]
      exact hstop' ▸ isAddress_stop (by simp)
    · rw [hl, ht]
      exact LeavesAlive.link_alive (hsl ▸ hno.link_dead) hlt'
  · -- the whole suffix is in the window
    obtain rfl : k = 0 := by omega
    simp only [lt_irrefl, if_false, drop_zero]
    obtain ⟨l, hl, hls, hsl, hkl, hlt', hwl, hgl⟩ := addChild_spec h ha ids kv hne hd hkv hnew false
    refine ⟨kv, hgl, ?_, fun hno => ?_⟩
    · rw [hl]
      have hstop : stop l = a ++ ids := by simp only [stop, start_eq, key_eq, hsl, hkl]
      exact hstop ▸ isAddress_stop (by simp)
    · rw [hl]
      exact LeavesAlive.link_alive (fun m hm hleaf _ => hno m hm hleaf) hlt'

/-! ### The result of `insert` -/

theorem exists_keepsTo (nodes : List RadixTreeNode) (ids : List Token) (p m : ℕ) :
    ∃ b, KeepsTo nodes ids p m b := by
  classical
  let good : ℕ → Prop := fun k => k = m ∨ IsAddress nodes (ids.take k)
  have h0 : good 0 := Or.inr (isAddress_nil _)
  refine ⟨Nat.findGreatest good (min p m), ?_, ?_, Nat.findGreatest_spec (Nat.zero_le _) h0, ?_⟩
  · exact (Nat.findGreatest_le _).trans (min_le_left _ _)
  · exact (Nat.findGreatest_le _).trans (min_le_right _ _)
  · exact fun k hkm hkp hk => Nat.le_findGreatest (le_min hkp hkm) hk

/-- What `insert` does with the slots from position `b` on: each is adopted or freed, along with
the slots it displaces, and those in `made` are adopted live. -/
structure Inserts (locks : List SwaLock) (c : SWARadixCache) (ids : List Token) (kv : List Slot)
    (b : ℕ) (c' : SWARadixCache) (freed made : List Slot) : Prop where
  inv : SwaInv c.pageSize locks c'.nodes c'.full c'.swa c'.uuid
  fields : c'.pageSize = c.pageSize ∧ c'.slidingWindowSize = c.slidingWindowSize ∧
    c'.uuid = c.uuid
  /-- No boundary disappears, and the end of the sequence becomes one. -/
  isAddress : ∀ a, IsAddress c.nodes a → IsAddress c'.nodes a
  address : IsAddress c'.nodes ids
  slots : ∀ x, total (slotCount x) c'.nodes + (freed.count x : ℕ) =
    total (slotCount x) c.nodes + ((kv.drop b).count x : ℕ)
  live : ∀ x, total (liveCount x) c'.nodes = total (liveCount x) c.nodes + (made.count x : ℕ)
  sub : made.Sublist (kv.drop b)
  noTombstoneLeaf : NoTombstoneLeaf c.nodes → NoTombstoneLeaf c'.nodes
  livePersists : LivePersists c.nodes c'.nodes

/-- **`insert` keeps the invariant, and accounts for every slot it is handed.** -/
theorem insert_spec (h : SwaInv c.pageSize locks c.nodes c.full c.swa c.uuid) {ids : List Token}
    {kv : List Slot} (hkv : kv.length = ids.length) {e p : ℕ} (he : c.pageSize ∣ e) :
    ∃ m, IsLongest c.pageSize (Resident c.nodes) (ids.take (alignDown ids.length c.pageSize)) m ∧
      (c.insert ids kv e p).2.1 = m ∧
      ∀ b, KeepsTo c.nodes (ids.take (alignDown ids.length c.pageSize)) p m b →
        ∃ made, Inserts locks c (ids.take (alignDown ids.length c.pageSize))
          (kv.take (alignDown ids.length c.pageSize)) b (c.insert ids kv e p).1
          (c.insert ids kv e p).2.2 made := by
  obtain ⟨L, hL⟩ : ∃ L, L = alignDown ids.length c.pageSize := ⟨_, rfl⟩
  have hLle : L ≤ ids.length := hL ▸ alignDown_le _ _
  have hlen : (ids.take L).length = L := by rw [length_take]; omega
  have hlenk : (kv.take L).length = L := by rw [length_take]; omega
  have hd : c.pageSize ∣ L := hL ▸ dvd_alignDown _ _
  obtain ⟨-, m, -, -, -, hl⟩ := treeWalk_spec h.wf (ids.take L) 0
  rw [← hL]
  obtain ⟨s, hs⟩ : ∃ s, s = insertLoop (ids.take L) (kv.take L) e p L { cache := c } := ⟨_, rfl⟩
  have hins : c.insert ids kv e p = (if s.total < L then
      s.cache.addSuffix s.node ((ids.take L).drop s.total) ((kv.take L).drop s.total)
        (min e L - s.total) else s.cache, s.total, s.freed) := by
    rw [hs, hL]
    rfl
  have hloop : ∀ b, KeepsTo c.nodes (ids.take L) p m b →
      ∃ made, InsertInv locks c (ids.take L) (kv.take L) p b s made ∧ s.total = m := by
    intro b hb
    rw [hs]
    refine insertLoop_spec h.wf (by rw [hlen, hlenk]) he hb hl L { cache := c } [] ?_
      (fun _ => rfl) (by simp [hlen])
    refine ⟨?_, Nat.zero_le _, rfl, isAddress_nil _, fun _ => Nat.zero_le _⟩
    simpa using Adopts.refl h
  -- how far the loop gets does not depend on the boundary
  obtain ⟨b₀, hb₀⟩ := exists_keepsTo c.nodes (ids.take L) p m
  obtain ⟨-, -, htotal⟩ := hloop b₀ hb₀
  refine ⟨m, hl, by rw [hins]; exact htotal, fun b hb => ?_⟩
  obtain ⟨made, hinv, -⟩ := hloop b hb
  have hmL : m ≤ L := hlen ▸ hl.le
  have hbm := hb.le_matched
  obtain ⟨hf₁, hf₂, hf₃, -⟩ := hinv.adopts.fields
  have hinv' := hinv.adopts.inv
  rw [hins]
  by_cases hlt : m < L
  · -- the rest of the sequence is linked below the matched path
    rw [htotal, if_pos hlt]
    have hla := (hinv.adopts.revives.isLongest_iff h.wf).mpr hl
    obtain ⟨made', hg, ha, hno⟩ := addSuffix_spec (c := s.cache) (a := s.node) hinv.swaInv
      hinv.address ((ids.take L).drop m) ((kv.take L).drop m)
      (length_pos_iff.mp (by rw [length_drop, hlen]; omega))
      (by rw [length_drop, hlen, hf₁]; exact Nat.dvd_sub hd hl.dvd)
      (by rw [length_drop, length_drop, hlen, hlenk]) (fun k hk hks => by
        rw [hinv.node_eq, htotal] at hks
        rw [hf₁]
        exact hinv'.wf.trie.page_ne_of_isLongest hla (by rwa [hlen]) (by rwa [hlen]) hk hks)
      (min e L - m) (by
        rw [hf₁]
        refine Nat.dvd_sub ?_ hl.dvd
        rcases Nat.le_total e L with hle | hle
        · rwa [min_eq_left hle]
        · rwa [min_eq_right hle])
    have hdrop : (kv.take L).drop b = ((kv.take L).take m).drop b ++ (kv.take L).drop m := by
      rw [← drop_append_of_le_length (by rw [length_take, hlenk]; omega), take_append_drop]
    have hoff := hinv.adopts
    rw [htotal] at hoff
    obtain ⟨ns, hns⟩ := hg.keeps
    have hmono : ∀ a, IsAddress s.cache.nodes a → IsAddress
        (s.cache.addSuffix s.node ((ids.take L).drop m) ((kv.take L).drop m) (min e L - m)).nodes
          a :=
      fun a ha => ha.mono fun n hn => ⟨n, by rw [hns]; exact mem_append_left _ hn, rfl⟩
    refine ⟨made ++ made', hf₁ ▸ hg.inv, ⟨hg.fields.1.trans hf₁, hg.fields.2.1.trans hf₂,
      hg.fields.2.2.trans hf₃⟩, fun a ha => hmono a (hoff.revives.isAddress h.wf ha), ?_,
      fun x => ?_, fun x => ?_, hdrop ▸ hoff.sub.append hg.sub,
      fun hnl => hno (hoff.revives.noTombstoneLeaf h.wf hnl),
      (hoff.revives.livePersists h.wf).trans (hns ▸ .append (hns ▸ hg.inv.wf))
        (fun a ha => hoff.revives.isAddress h.wf ha) h.wf⟩
    · have hnode : s.node ++ (ids.take L).drop m = ids.take L := by
        rw [hinv.node_eq, htotal, take_append_drop]
      have := ha
      rwa [hnode] at this
    · have h₁ := hoff.slots x
      have h₂ := hg.slots x
      rw [hdrop, count_append]
      push_cast
      omega
    · rw [hg.live x, hoff.live x, count_append]
      push_cast
      ring
  · -- the whole sequence was in the tree
    obtain rfl : m = L := by omega
    rw [htotal, if_neg hlt]
    have hoff := hinv.adopts
    rw [htotal, take_take, min_self] at hoff
    refine ⟨made, hoff.inv, ⟨hf₁, hf₂, hf₃⟩, fun a ha => hoff.revives.isAddress h.wf ha, ?_,
      hoff.slots, hoff.live, hoff.sub, fun hnl => hoff.revives.noTombstoneLeaf h.wf hnl,
      hoff.revives.livePersists h.wf⟩
    have := hinv.address
    rwa [hinv.node_eq, htotal, take_take, min_self] at this

end SWARadixCache

end FreeToken
