import FreeToken.Attention.IndexPool
import FreeToken.Attention.Equiv.Ragged

/-!
# What the kernels of an index read and write

The rows of a batch are tokens of its requests (`Chunk.IsRow`).  The members that are pooled for a
row are, position by position, raw rows of the same request, or rows of its ring (`chunkMember`).

* `qsa_member_eq`, `kpool_member_eq`: both kernels load the same members.
* `RingHolds`: the ring has the members of the open group; a closing row loads its group
  (`chunkMember_eq`), and the refresh keeps that true (`RingHolds.store`).
-/

namespace FreeToken

open List

open QsaCompress (qsaStoreRows)

variable {τ α : Type} {cs : List (Chunk τ)} {c c' : Chunk τ}
  {i j j' d ratio capacity numRingSlots : ℕ}

/-- The member at a position: a raw row of the request, or a row of its ring. -/
def chunkMember (k ring : ℕ → α) (capacity start : ℕ) (c : Chunk τ) (position : ℕ) : α :=
  if c.cachedLen ≤ position then k (start + (position - c.cachedLen))
  else ring (c.tableIdx * capacity + position % capacity)

/-! ### The loads of the kernels -/

section Loads

variable [Zero α] {k ring : ℕ → α} {off : ℕ}

theorem qsa_rowInfo_eq (h : Chunk.IsRow cs i j c d) (hslot : c.tableIdx < numRingSlots)
    (hgroup : ratio ≤ c.cachedLen + d + 1) :
    QsaCompress.rowInfo (Chunk.prepareMetadata cs) numRingSlots ratio i =
      { endPosition := (c.cachedLen + d : ℕ), queryRowStart := Chunk.cuSeqlens cs j
        queryRowEnd := Chunk.cuSeqlens cs j + c.extendLen, chunkStartPosition := c.cachedLen
        ringSlot := c.tableIdx, validRingSlot := true, validRow := true } := by
  obtain ⟨hreq, hpos, -, hring, hstart, hend, -⟩ := h.metadata
  have hj : j < cs.length := (List.getElem?_eq_some_iff.mp h.req).1
  have hrow := h.row
  have htoken := h.token
  have hlt := h.lt
  unfold QsaCompress.rowInfo
  have hnum : (Chunk.prepareMetadata cs).numRequests = cs.length := rfl
  have hrows : (Chunk.prepareMetadata cs).numRows = Chunk.cuSeqlens cs cs.length := rfl
  have hvalid : (decide (0 ≤ (j : ℤ)) && decide ((j : ℤ) < (cs.length : ℤ))) = true := by
    simp only [Bool.and_eq_true, decide_eq_true_eq]
    omega
  have hsafe : (min (max (j : ℤ) 0) ((cs.length : ℤ) - 1)).toNat = j := by omega
  simp only [hreq, hpos, hnum, hrows, hvalid, hsafe, if_true, hstart, hend, hring]
  congr 1
  · omega
  · simp only [Bool.and_eq_true, decide_eq_true_eq]
    omega
  · simp only [Bool.and_eq_true, decide_eq_true_eq, Bool.and_true]
    omega

/-- Where the member is that a row of a QSA batch loads. -/
theorem qsa_member_eq (h : Chunk.IsRow cs i j c d) (hslot : c.tableIdx < numRingSlots)
    (hgroup : ratio ≤ c.cachedLen + d + 1) (hoff : off < ratio) :
    QsaCompress.member k ring (Chunk.prepareMetadata cs).numRows capacity ratio
      (QsaCompress.rowInfo (Chunk.prepareMetadata cs) numRingSlots ratio i) off =
      chunkMember k ring capacity (Chunk.cuSeqlens cs j) c (c.cachedLen + d + 1 - ratio + off) := by
  rw [qsa_rowInfo_eq h hslot hgroup]
  have hrow := h.row
  have htoken := h.token
  have hlt := h.lt
  have hrows : (Chunk.prepareMetadata cs).numRows = Chunk.cuSeqlens cs cs.length := rfl
  unfold QsaCompress.member QsaCompress.readsRing QsaCompress.ringAddr QsaCompress.memberPosition
    chunkMember
  rw [hrows]
  have hposition :
      ((c.cachedLen + d : ℕ) : ℤ) - ((ratio : ℤ) - 1 - off) =
      (c.cachedLen + d + 1 - ratio + off : ℕ) := by
    omega
  simp only [hposition]
  generalize c.cachedLen + d + 1 - ratio + off = q at *
  by_cases hraw : c.cachedLen ≤ q
  · rw [if_pos (by omega), if_pos hraw, if_pos]
    · congr 1
      omega
    · simp only [Bool.and_eq_true, decide_eq_true_eq, Bool.true_and]
      omega
  · rw [if_neg (by omega), if_neg hraw, if_pos]
    · congr 1
      have hmod : ((q : ℤ) % (capacity : ℤ)).toNat = q % capacity := by
        rw [← Int.natCast_mod, Int.toNat_natCast]
      rw [hmod]
      congr 2
      omega
    · simp only [Bool.not_eq_true', decide_eq_false_iff_not, Bool.true_and, Bool.and_true]
      omega

theorem kpool_rowInfo_eq (h : Chunk.IsRow cs i j c d) (hgroup : ratio ≤ c.cachedLen + d + 1) :
    KpoolCompress.rowInfo (Chunk.prepareMetadata cs) ratio i =
      { endPosition := (c.cachedLen + d : ℕ), queryRowStart := Chunk.cuSeqlens cs j
        chunkStartPosition := c.cachedLen, ringSlot := c.tableIdx, validRow := true } := by
  obtain ⟨hreq, hpos, -, hring, hstart, -, -⟩ := h.metadata
  have hj : j < cs.length := (List.getElem?_eq_some_iff.mp h.req).1
  have hrow := h.row
  have hlt := h.lt
  unfold KpoolCompress.rowInfo
  have hnum : (Chunk.prepareMetadata cs).numRequests = cs.length := rfl
  have hrows : (Chunk.prepareMetadata cs).numRows = Chunk.cuSeqlens cs cs.length := rfl
  have hvalid : (decide (0 ≤ (j : ℤ)) && decide ((j : ℤ) < (cs.length : ℤ))) = true := by
    simp only [Bool.and_eq_true, decide_eq_true_eq]
    omega
  have hsafe : (min (max (j : ℤ) 0) ((cs.length : ℤ) - 1)).toNat = j := by omega
  simp only [hrows, hlt, if_true, hreq, hpos, hnum, hvalid, hsafe, hstart, hring]
  congr 1
  · omega
  · simp only [decide_eq_true_eq, Bool.true_and, decide_true]
    omega

theorem kpool_member_eq (h : Chunk.IsRow cs i j c d) (hslot : c.tableIdx < numRingSlots)
    (hgroup : ratio ≤ c.cachedLen + d + 1) (hoff : off < ratio) :
    KpoolCompress.member k ring (Chunk.prepareMetadata cs).numRows (numRingSlots * ratio) ratio
      (KpoolCompress.rowInfo (Chunk.prepareMetadata cs) ratio i) off =
      chunkMember k ring ratio (Chunk.cuSeqlens cs j) c (c.cachedLen + d + 1 - ratio + off) := by
  rw [kpool_rowInfo_eq h hgroup]
  have hrow := h.row
  have htoken := h.token
  have hlt := h.lt
  have hrows : (Chunk.prepareMetadata cs).numRows = Chunk.cuSeqlens cs cs.length := rfl
  unfold KpoolCompress.member KpoolCompress.readsRing KpoolCompress.ringAddr KpoolCompress.ringRow
    KpoolCompress.memberPosition chunkMember
  rw [hrows]
  have hposition :
      ((c.cachedLen + d : ℕ) : ℤ) - ((ratio : ℤ) - 1 - off) =
      (c.cachedLen + d + 1 - ratio + off : ℕ) := by
    omega
  simp only [hposition]
  generalize c.cachedLen + d + 1 - ratio + off = q at *
  by_cases hraw : c.cachedLen ≤ q
  · rw [if_pos (by omega), if_pos hraw, if_pos]
    · congr 1
      omega
    · simp only [Bool.and_eq_true, decide_eq_true_eq, Bool.true_and]
      omega
  · -- the row of the ring is in the ring
    have hmod : q % ratio < ratio := Nat.mod_lt _ (by omega)
    have hin : c.tableIdx * ratio + q % ratio < numRingSlots * ratio := by
      have hmul : (c.tableIdx + 1) * ratio ≤ numRingSlots * ratio := Nat.mul_le_mul_right _ hslot
      rw [Nat.add_mul, Nat.one_mul] at hmul
      omega
    have haddr :
      (c.tableIdx : ℤ) * ratio + (q : ℤ) % ratio = (c.tableIdx * ratio + q % ratio : ℕ) := by
      push_cast
      rfl
    rw [if_neg (by omega), if_neg hraw, haddr, if_pos]
    · congr 1
      omega
    · simp only [Bool.and_eq_true, Bool.not_eq_true', decide_eq_false_iff_not, Bool.true_and,
        decide_eq_true_eq]
      omega

end Loads

/-! ### The ring of a request -/

/-- The ring holds the members of the open group. -/
def RingHolds (ratio capacity : ℕ) (ring : ℕ → α) (f : τ → α) (slot : ℕ) (done : List τ) : Prop :=
  ∀ q x, done.length / ratio * ratio ≤ q → done[q]? = some x →
    ring (slot * capacity + q % capacity) = f x

variable {k ring : ℕ → α} {f : τ → α} {done : List τ}

/-- A row of the batch and its value. -/
theorem raw_eq (hk : ∀ i x, (Chunk.rawKeys cs)[i]? = some x → k i = f x) (hreq : cs[j]? = some c)
    {e : ℕ} {x : τ} (hx : c.raws[e]? = some x) : k (Chunk.cuSeqlens cs j + e) = f x := by
  have he : e < c.extendLen := (List.getElem?_eq_some_iff.mp hx).1
  have hrow : Chunk.IsRow cs (Chunk.cuSeqlens cs j + e) j c e := ⟨hreq, he, rfl⟩
  exact hk _ x (hrow.metadata.2.2.2.2.2.2.trans hx)

/-- What is loaded for a position of the open group, or of the group that it closes. -/
theorem chunkMember_eq (hlen : c.cachedLen = done.length)
    (hring : RingHolds ratio capacity ring f c.tableIdx done)
    (hk : ∀ i x, (Chunk.rawKeys cs)[i]? = some x → k i = f x) (hreq : cs[j]? = some c) {q : ℕ}
    {x : τ} (hq : done.length / ratio * ratio ≤ q) (hx : (done ++ c.raws)[q]? = some x) :
    chunkMember k ring capacity (Chunk.cuSeqlens cs j) c q = f x := by
  unfold chunkMember
  by_cases hraw : c.cachedLen ≤ q
  · rw [if_pos hraw, hlen]
    rw [getElem?_append_right (hlen ▸ hraw)] at hx
    exact raw_eq hk hreq hx
  · rw [if_neg hraw]
    rw [getElem?_append_left (by omega)] at hx
    exact hring q x hq hx

theorem chunkMember_group (hlen : c.cachedLen = done.length)
    (hring : RingHolds ratio capacity ring f c.tableIdx done)
    (hk : ∀ i x, (Chunk.rawKeys cs)[i]? = some x → k i = f x) (h : Chunk.IsRow cs i j c d) {n : ℕ}
    (hclose : c.cachedLen + d + 1 = (n + 1) * ratio) :
    (range ratio).map (fun off =>
      chunkMember k ring capacity (Chunk.cuSeqlens cs j) c (c.cachedLen + d + 1 - ratio + off)) =
      (((done ++ c.raws).drop (n * ratio)).take ratio).map f := by
  have htoken : d < c.raws.length := h.token
  have hstart : c.cachedLen + d + 1 - ratio = n * ratio := by
    rw [hclose, Nat.add_mul, Nat.one_mul, Nat.add_sub_cancel]
  have hopen : done.length / ratio * ratio ≤ n * ratio := by
    by_cases hzero : ratio = 0
    · rw [hzero, Nat.mul_zero]
      exact Nat.zero_le _
    · apply Nat.mul_le_mul_right
      rw [← Nat.lt_succ_iff, Nat.div_lt_iff_lt_mul (Nat.pos_of_ne_zero hzero)]
      show done.length < (n + 1) * ratio
      omega
  have hlength : n * ratio + ratio ≤ (done ++ c.raws).length := by
    rw [length_append, ← Nat.succ_mul, ← hclose]
    omega
  rw [hstart]
  apply ext_getElem
  · rw [length_map, length_range, length_map, length_take, length_drop]
    omega
  · intro e he he'
    rw [length_map, length_range] at he
    have hbound : n * ratio + e < (done ++ c.raws).length := by omega
    have hx : (done ++ c.raws)[n * ratio + e]? = some (done ++ c.raws)[n * ratio + e] :=
      getElem?_eq_getElem hbound
    rw [getElem_map, getElem_range, chunkMember_eq hlen hring hk h.req (by omega) hx, getElem_map,
      getElem_take, getElem_drop]

/-! ### The refresh of the ring -/

theorem ringRowsOf_eq (h : Chunk.IsRow cs i j c d) :
    ringRowsOf (Chunk.prepareMetadata cs) capacity i =
      if c.extendLen ≤ d +
        capacity then ((c.tableIdx * capacity + (c.cachedLen + d) % capacity : ℕ) : ℤ)
      else -1 := by
  obtain ⟨hreq, hpos, -, hring, -, hend, -⟩ := h.metadata
  have hrow := h.row
  have hreqOf : Ragged.reqOf (Chunk.prepareMetadata cs) i = j := by
    unfold Ragged.reqOf
    rw [hreq, Int.toNat_natCast]
  unfold ringRowsOf
  simp only [hreqOf, hend, hring, hpos]
  have hiff : decide ((Chunk.cuSeqlens cs j : ℤ) + c.extendLen - capacity ≤ i) =
      decide (c.extendLen ≤ d + capacity) := by
    rw [decide_eq_decide]
    omega
  rw [hiff]
  simp only [decide_eq_true_eq]
  split_ifs
  · push_cast
    rfl
  · rfl

theorem qsaStoreRows_eq :
    qsaStoreRows ring numRingSlots capacity (ringRowsOf (Chunk.prepareMetadata cs) capacity)
      (Chunk.prepareMetadata cs).numRows k = laneStore (Chunk.cuSeqlens cs cs.length)
        (fun row => 0 ≤ ringRowsOf (Chunk.prepareMetadata cs) capacity row &&
          ringRowsOf (Chunk.prepareMetadata cs) capacity row < numRingSlots * capacity)
        (fun row => (max (ringRowsOf (Chunk.prepareMetadata cs) capacity row) 0).toNat) k ring := by
  unfold qsaStoreRows
  congr 1
  funext row
  exact Nat.div_add_mod' _ _

theorem qsaStoreRows_of_ne {a : ℕ}
    (h : ∀ i j c d, Chunk.IsRow cs i j c d → c.extendLen ≤ d + capacity →
      c.tableIdx * capacity + (c.cachedLen + d) % capacity ≠ a) :
    qsaStoreRows ring numRingSlots capacity (ringRowsOf (Chunk.prepareMetadata cs) capacity)
      (Chunk.prepareMetadata cs).numRows k a = ring a := by
  rw [qsaStoreRows_eq]
  apply laneStore_of_ne
  intro i hi hmask
  obtain ⟨j, c, d, hrow⟩ := Chunk.exists_isRow hi
  rw [ringRowsOf_eq hrow] at hmask ⊢
  by_cases hkeep : c.extendLen ≤ d + capacity
  · rw [if_pos hkeep, max_eq_left (Int.natCast_nonneg _), Int.toNat_natCast]
    exact h i j c d hrow hkeep
  · rw [if_neg hkeep] at hmask
    rw [Bool.and_eq_true] at hmask
    exact absurd hmask.1 (by decide)

theorem slot_eq_of_addr {s s' p p' : ℕ} (hcap : 0 < capacity)
    (h : s * capacity + p % capacity = s' * capacity + p' % capacity) :
    s = s' ∧ p % capacity = p' % capacity := by
  have hp := Nat.mod_lt p hcap
  have hp' := Nat.mod_lt p' hcap
  have hdiv := congrArg (· / capacity) h
  simp only [mul_comm _ capacity, Nat.mul_add_div hcap, Nat.div_eq_of_lt hp, Nat.div_eq_of_lt hp',
    add_zero] at hdiv
  subst hdiv
  exact ⟨rfl, by omega⟩

theorem RingHolds.frame (hcap : 0 < capacity) {slot : ℕ}
    (hring : RingHolds ratio capacity ring f slot done)
    (hout : ∀ (j : ℕ) (c : Chunk τ), cs[j]? = some c → c.tableIdx ≠ slot) :
    RingHolds ratio capacity (qsaStoreRows ring numRingSlots capacity
      (ringRowsOf (Chunk.prepareMetadata cs) capacity) (Chunk.prepareMetadata cs).numRows k) f slot
      done := by
  intro q x hq hx
  rw [qsaStoreRows_of_ne]
  · exact hring q x hq hx
  · intro i j c d hrow _ haddr
    exact hout j c hrow.req (slot_eq_of_addr hcap haddr).1

theorem eq_of_mod_eq {p q : ℕ} (h : p % capacity = q % capacity) (hpq : q ≤ p)
    (hlt : p < q + capacity) : p = q := by
  have hp := Nat.div_add_mod p capacity
  have hq := Nat.div_add_mod q capacity
  rw [h] at hp
  by_contra hne
  have hdiv : q / capacity + 1 ≤ p / capacity := by
    by_contra hle
    have heq : p / capacity = q / capacity := by
      have hmono := @Nat.div_le_div_right q p capacity hpq
      omega
    rw [heq] at hp
    omega
  have hmul := Nat.mul_le_mul_left capacity hdiv
  rw [mul_add, mul_one] at hmul
  omega

theorem RingHolds.store (hpos : 0 < ratio) (hcap : ratio ≤ capacity)
    (hlen : c.cachedLen = done.length)
    (hslot : c.tableIdx < numRingSlots) (hring : RingHolds ratio capacity ring f c.tableIdx done)
    (hk : ∀ i x, (Chunk.rawKeys cs)[i]? = some x → k i = f x) (hreq : cs[j]? = some c)
    (huniq : ∀ j' c', cs[j']? = some c' → c'.tableIdx = c.tableIdx → j' = j) :
    RingHolds ratio capacity (qsaStoreRows ring numRingSlots capacity
      (ringRowsOf (Chunk.prepareMetadata cs) capacity) (Chunk.prepareMetadata cs).numRows k) f
      c.tableIdx (done ++ c.raws) := by
  intro q x hq hx
  have hqlt : q < (done ++ c.raws).length := (List.getElem?_eq_some_iff.mp hx).1
  rw [length_append] at hq hqlt
  have hext : c.extendLen = c.raws.length := rfl
  have hgroup : done.length + c.raws.length < q + ratio := by
    have hdiv := Nat.div_add_mod' (done.length + c.raws.length) ratio
    have hmod := Nat.mod_lt (done.length + c.raws.length) hpos
    omega
  -- a row of the batch at the same place is the position itself
  have hsame : ∀ i' j' c' d', Chunk.IsRow cs i' j' c' d' → c'.extendLen ≤ d' + capacity →
      c'.tableIdx * capacity + (c'.cachedLen + d') % capacity = c.tableIdx * capacity + q %
        capacity →
      c' = c ∧ c.cachedLen + d' = q := by
    intro i' j' c' d' hrow hkeep haddr
    obtain ⟨hidx, hmod⟩ := slot_eq_of_addr (by omega) haddr
    have hj := huniq j' c' hrow.req hidx
    subst hj
    have hc : c' = c := Option.some.inj (hrow.req.symm.trans hreq)
    subst hc
    have htoken := hrow.token
    refine ⟨rfl, ?_⟩
    by_cases hle : q ≤ c'.cachedLen + d'
    · exact eq_of_mod_eq hmod hle (by omega)
    · exact (eq_of_mod_eq hmod.symm (by omega) (by omega)).symm
  by_cases hraw : c.cachedLen ≤ q
  · -- it is a row of the batch, and kept
    have hx' : c.raws[q - c.cachedLen]? = some x := by
      rw [getElem?_append_right (hlen ▸ hraw)] at hx
      rw [hlen]
      exact hx
    have hrow : Chunk.IsRow cs (Chunk.cuSeqlens cs j + (q - c.cachedLen)) j c (q - c.cachedLen) :=
      ⟨hreq, by omega, rfl⟩
    have hpos : c.cachedLen + (q - c.cachedLen) = q := Nat.add_sub_cancel' hraw
    have hplace :
        ringRowsOf (Chunk.prepareMetadata cs) capacity (Chunk.cuSeqlens cs j + (q - c.cachedLen)) =
        (c.tableIdx * capacity + q % capacity : ℕ) := by
      rw [ringRowsOf_eq hrow, if_pos (by omega), hpos]
    rw [qsaStoreRows_eq]
    apply laneStore_of_eq hrow.lt
    · rw [hplace]
      have hmod : q % capacity < capacity := Nat.mod_lt _ (by omega)
      have hin : c.tableIdx * capacity + q % capacity < numRingSlots * capacity := by
        have hmul : (c.tableIdx + 1) * capacity ≤ numRingSlots * capacity :=
          Nat.mul_le_mul_right _ hslot
        rw [Nat.add_mul, Nat.one_mul] at hmul
        omega
      simp only [Bool.and_eq_true, decide_eq_true_eq]
      exact ⟨Int.natCast_nonneg _, by exact_mod_cast hin⟩
    · rw [hplace, max_eq_left (Int.natCast_nonneg _), Int.toNat_natCast]
    · intro i' hi' hmask haddr
      obtain ⟨j', c', d', hrow'⟩ := Chunk.exists_isRow hi'
      rw [ringRowsOf_eq hrow'] at hmask haddr
      by_cases hkeep : c'.extendLen ≤ d' + capacity
      · rw [if_pos hkeep, max_eq_left (Int.natCast_nonneg _), Int.toNat_natCast] at haddr
        obtain ⟨rfl, hq'⟩ := hsame i' j' c' d' hrow' hkeep haddr
        have hj := huniq j' c' hrow'.req rfl
        subst hj
        rw [hrow'.row, show d' = q - c'.cachedLen by omega]
        exact raw_eq hk hreq hx'
      · rw [if_neg hkeep, Bool.and_eq_true] at hmask
        exact absurd hmask.1 (by decide)
  · rw [qsaStoreRows_of_ne]
    · rw [getElem?_append_left (by omega)] at hx
      apply hring q x _ hx
      exact (Nat.mul_le_mul_right _ (Nat.div_le_div_right (Nat.le_add_right _ _))).trans hq
    · intro i' j' c' d' hrow hkeep haddr
      have hq' := (hsame i' j' c' d' hrow hkeep haddr).2
      omega

/-! ### The slab -/

variable {β : Type} {g : IndexGeometry} {a : ℕ} {slab : ℕ → β}

/-- Where the entry of a token goes: to the row of its group if it closes the group, and else behind
the slab.  Of a padding row only the first is known. -/
structure IsDest (g : IndexGeometry) (dest : Chunk τ → ℕ → ℕ) : Prop where
  row_or_scratch : ∀ c p, dest c p = c.pageTable p / g.ratio ∨ g.cmpScratchBase ≤ dest c p
  closing : ∀ c p, c.pageTable p % g.ratio = p % g.ratio → (p + 1) % g.ratio = 0 →
    dest c p = c.pageTable p / g.ratio
  scratch : ∀ c p, c.pageTable p % g.ratio = p % g.ratio → (p + 1) % g.ratio ≠ 0 →
    g.cmpScratchBase ≤ dest c p

/-- `cmp_rows` of QSA: the KV slot tells whether a token closes its group. -/
def qsaDest (g : IndexGeometry) (c : Chunk τ) (p : ℕ) : ℕ :=
  if c.pageTable p % g.ratio = g.ratio - 1 then c.pageTable p / g.ratio else g.cmpScratchBase +
    c.tableIdx

/-- `cmp_rows` of kpool: the position tells it. -/
def kpoolDest (g : IndexGeometry) (c : Chunk τ) (p : ℕ) : ℕ :=
  if p % g.ratio = g.ratio - 1 then c.pageTable p / g.ratio else g.cmpScratchBase + c.tableIdx

/-- The last token of a group. -/
theorem closing_iff (g : IndexGeometry) (p : ℕ) :
    p % g.ratio = g.ratio - 1 ↔ (p + 1) % g.ratio = 0 := by
  have hpos := g.ratio_pos
  have hmod := Nat.mod_lt p hpos
  rw [Nat.add_mod]
  constructor
  · intro h
    rw [h]
    by_cases hone : g.ratio = 1
    · rw [hone]
    · rw [Nat.mod_eq_of_lt (a := 1) (by omega), Nat.sub_add_cancel hpos, Nat.mod_self]
  · intro h
    by_contra hne
    rw [Nat.mod_eq_of_lt (a := 1) (by omega), Nat.mod_eq_of_lt (by omega)] at h
    omega

theorem isDest_qsaDest : IsDest (τ := τ) g (qsaDest g) := by
  constructor
  · intro c p
    unfold qsaDest
    split_ifs
    · exact Or.inl rfl
    · exact Or.inr (Nat.le_add_right _ _)
  · intro c p hslot hclose
    unfold qsaDest
    rw [hslot, if_pos ((closing_iff g p).mpr hclose)]
  · intro c p hslot hopen
    unfold qsaDest
    rw [hslot, if_neg (fun h => hopen ((closing_iff g p).mp h))]
    exact Nat.le_add_right _ _

theorem isDest_kpoolDest : IsDest (τ := τ) g (kpoolDest g) := by
  constructor
  · intro c p
    unfold kpoolDest
    split_ifs
    · exact Or.inl rfl
    · exact Or.inr (Nat.le_add_right _ _)
  · intro c p _ hclose
    unfold kpoolDest
    rw [if_pos ((closing_iff g p).mpr hclose)]
  · intro c p _ hopen
    unfold kpoolDest
    rw [if_neg (fun h => hopen ((closing_iff g p).mp h))]
    exact Nat.le_add_right _ _

theorem qsa_cmpRows_eq (h : Chunk.IsRow cs i j c d) :
    (QsaSparse.planIndexWrites g (Chunk.prepareMetadata cs)).cmpRows i =
    (qsaDest g c (c.cachedLen + d) : ℕ) := by
  obtain ⟨hreq, -, hloc, hring, -, -, -⟩ := h.metadata
  have hreqOf : Ragged.reqOf (Chunk.prepareMetadata cs) i = j := by
    unfold Ragged.reqOf
    rw [hreq, Int.toNat_natCast]
  unfold QsaSparse.planIndexWrites qsaDest
  simp only [hloc, hreqOf, hring, decide_eq_true_eq]
  split_ifs
  · rfl
  · push_cast
    rfl

theorem kpool_cmpRows_eq (h : Chunk.IsRow cs i j c d) :
    (DsaIndexerKpool.planKpoolWrites g (Chunk.prepareMetadata cs)).cmpRows i =
      (kpoolDest g c (c.cachedLen + d) : ℕ) := by
  obtain ⟨hreq, hpos, hloc, hring, -, -, -⟩ := h.metadata
  have hreqOf : Ragged.reqOf (Chunk.prepareMetadata cs) i = j := by
    unfold Ragged.reqOf
    rw [hreq, Int.toNat_natCast]
  have hclosing : (((c.cachedLen + d : ℕ) : ℤ) % (g.ratio : ℤ) = (g.ratio : ℤ) - 1) ↔
      (c.cachedLen + d) % g.ratio = g.ratio - 1 := by
    rw [← Int.natCast_mod]
    have hratio := g.ratio_pos
    omega
  unfold DsaIndexerKpool.planKpoolWrites kpoolDest
  simp only [hpos, hloc, hreqOf, hring, hclosing, decide_eq_true_eq]
  split_ifs
  · rfl
  · push_cast
    rfl

/-- A store of the rows of a batch, each at its destination. -/
structure StoresAt (cs : List (Chunk τ)) (dest : Chunk τ → ℕ → ℕ) (val : ℕ → β)
    (slab slab' : ℕ → β) : Prop where
  of_eq : ∀ i j c d, Chunk.IsRow cs i j c d →
    (∀ i' j' c' d', Chunk.IsRow cs i' j' c' d' → dest c' (c'.cachedLen + d') =
      dest c (c.cachedLen + d) → i' = i) →
    slab' (dest c (c.cachedLen + d)) = val i
  of_ne : ∀ a, (∀ i j c d, Chunk.IsRow cs i j c d → dest c (c.cachedLen + d) ≠ a) → slab' a = slab a

theorem storesAt_laneStore {dest : Chunk τ → ℕ → ℕ} {mask : ℕ → Bool} {idx : ℕ → ℕ} {val : ℕ → β}
    (h : ∀ i j c d, Chunk.IsRow cs i j c d → mask i = true ∧ idx i = dest c (c.cachedLen + d)) :
    StoresAt cs dest val slab (laneStore (Chunk.cuSeqlens cs cs.length) mask idx val slab) := by
  constructor
  · intro i j c d hrow huniq
    obtain ⟨hmask, hidx⟩ := h i j c d hrow
    apply laneStore_of_eq hrow.lt hmask hidx
    intro i' hi' _ hidx'
    obtain ⟨j', c', d', hrow'⟩ := Chunk.exists_isRow hi'
    rw [(h i' j' c' d' hrow').2] at hidx'
    rw [huniq i' j' c' d' hrow' hidx']
  · intro a hne
    apply laneStore_of_ne
    intro i hi _
    obtain ⟨j, c, d, hrow⟩ := Chunk.exists_isRow hi
    rw [(h i j c d hrow).2]
    exact hne i j c d hrow

end FreeToken
