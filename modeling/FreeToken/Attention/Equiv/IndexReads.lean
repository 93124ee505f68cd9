import FreeToken.Attention.Equiv.IndexEntries

/-!
# The QSA and the kpool index under every schedule

Both indexes are an `IndexStore`, so the entries of complete groups are always right.  A row that
closes a group reads the members of its own request from the ring; a row that closes none may read
anything, as its entry is thrown away.

* `QsaSparse.indexStore`, `DsaIndexerKpool.indexStore`
* `QsaSparse.EntriesOk`, `DsaIndexerKpool.EntriesOk`: what holds in every run
  (`entriesOk_of_indexRun`).
-/

namespace FreeToken

open List

variable {τ α κ γ β : Type} {g : IndexGeometry} {cs : List (Chunk τ)} {c : Chunk τ} {w : World τ}
  {reqs : List (ℕ × List τ)} {pads : List (ℕ × τ)} {done done' : List τ} {i j d n : ℕ}

structure World.RequestRow (g : IndexGeometry) (w : World τ) (reqs : List (ℕ × List τ))
    (pads : List (ℕ × τ)) (i : ℕ) (r : IndexReq τ) (d : ℕ) : Prop where
  exists_isRow : ∃ j q, reqs[j]? = some q ∧ w.live q.1 = some r ∧
    Chunk.IsRow (w.chunks g reqs pads) i j (w.chunkOf g q) d

/-! ### The ring -/

section Ring

variable {ratio capacity s : ℕ} {ring : ℕ → α} {f : τ → α}

theorem RingHolds.congr (hring : RingHolds ratio capacity ring f s done)
    (hlength : done'.length = done.length)
    (h : ∀ q, done.length / ratio * ratio ≤ q → done'[q]? = done[q]?) :
    RingHolds ratio capacity ring f s done' := by
  intro q x hq hx
  rw [hlength] at hq
  rw [h q hq] at hx
  exact hring q x hq hx

theorem RingHolds.of_closed (h : done.length % ratio = 0) :
    RingHolds ratio capacity ring f s done := by
  intro q x hq hx
  have hlt := (List.getElem?_eq_some_iff.mp hx).1
  have hdiv := Nat.div_add_mod' done.length ratio
  omega

theorem open_le_of_closing (hclose : done.length + d + 1 = (n + 1) * ratio) :
    done.length / ratio * ratio ≤ n * ratio := by
  by_cases hzero : ratio = 0
  · rw [hzero, Nat.mul_zero]
    exact Nat.zero_le _
  · apply Nat.mul_le_mul_right
    rw [← Nat.lt_succ_iff, Nat.div_lt_iff_lt_mul (Nat.pos_of_ne_zero hzero)]
    show done.length < (n + 1) * ratio
    omega

theorem RingHolds.getElem? (hring : RingHolds ratio capacity ring f s done)
    (hclose : (done.length + d + 1) % ratio = 0) {off : ℕ} (hgroup : ratio ≤ done.length + d + 1)
    (hlt : done.length + d + 1 - ratio + off < done.length) :
    ∃ x, done[done.length + d + 1 - ratio + off]? = some x ∧
      ring (s * capacity + (done.length + d + 1 - ratio + off) % capacity) = f x := by
  have hdiv := Nat.div_add_mod' (done.length + d + 1) ratio
  rw [hclose, add_zero] at hdiv
  have hle : done.length / ratio * ratio ≤ done.length + d + 1 - ratio := by
    by_cases hzero : ratio = 0
    · rw [hzero, Nat.mul_zero]
      exact Nat.zero_le _
    · have hone : 1 ≤ (done.length + d + 1) / ratio :=
        (Nat.one_le_div_iff (Nat.pos_of_ne_zero hzero)).mpr hgroup
      have hn : done.length + d + 1 = ((done.length + d + 1) / ratio - 1 + 1) * ratio := by
        rw [Nat.sub_add_cancel hone]
        exact hdiv.symm
      have hopen := open_le_of_closing hn
      rw [add_mul, one_mul] at hn
      omega
  exact ⟨_, getElem?_eq_getElem hlt, hring _ _ (by omega) (getElem?_eq_getElem hlt)⟩

end Ring

theorem ratio_le_of_closing (hclose : (done.length + d + 1) % g.ratio = 0) :
    g.ratio ≤ done.length + d + 1 :=
  Nat.le_of_dvd (by omega) (Nat.dvd_of_mod_eq_zero hclose)

/-! ### QSA -/

namespace QsaSparse

open QsaCompress

variable [Zero α] {pool : List α → γ} {normRope : γ → ℤ → β} {cs : List (Chunk α)} {c : Chunk α}
  {done : List α}

theorem qsaCompressGroups_eq {k ring : ℕ → α}
    (hk : ∀ i x, (Chunk.rawKeys cs)[i]? = some x → k i = x) (h : Chunk.IsRow cs i j c d)
    (hslot : c.tableIdx < g.numReqSlots) (hlen : c.cachedLen = done.length)
    (hring : RingHolds g.ratio g.ringCapacity ring id c.tableIdx done)
    (hclose : c.cachedLen + d + 1 = (n + 1) * g.ratio) :
    qsaCompressGroups k ring (Chunk.prepareMetadata cs) g.numReqSlots g.ringCapacity g.ratio i =
      groupMembers g (done ++ c.raws) n := by
  have hgroup : g.ratio ≤ c.cachedLen + d + 1 := by
    rw [hclose, add_mul, one_mul]
    exact Nat.le_add_left _ _
  unfold qsaCompressGroups groupMembers
  rw [map_congr_left fun off hoff => qsa_member_eq h hslot hgroup (mem_range.mp hoff),
    chunkMember_group hlen hring hk h hclose, map_id]

omit [Zero α] in
theorem firstPosition_eq (h : Chunk.IsRow cs i j c d)
    (hslot : c.tableIdx < g.numReqSlots) (hclose : c.cachedLen + d + 1 = (n + 1) * g.ratio) :
    firstPosition (Chunk.prepareMetadata cs) g.numReqSlots g.ratio i = (n * g.ratio : ℕ) := by
  rw [add_mul, one_mul] at hclose
  unfold firstPosition
  rw [qsa_rowInfo_eq h hslot (by omega)]
  simp only [if_true]
  omega

theorem indexStore : IndexStore g (updateIndexCache g pool normRope) IndexCache.slab
    (fun c s done => RingHolds g.ratio g.ringCapacity c.ring id s done)
    (fun k group => normRope (pool group) (k * g.ratio : ℕ)) (qsaDest g) := by
  have hraw :
      ∀ (cs : List (Chunk α)) (i : ℕ) (x : α), (Chunk.rawKeys cs)[i]? = some x →
      ((Chunk.rawKeys cs)[i]?).getD 0 = id x := by
    intro cs i x h
    rw [h]
    rfl
  constructor
  · exact isDest_qsaDest
  · intro cs m j c done hreq hlen hslot huniq hring
    exact hring.store g.ratio_pos g.ratio_le hlen hslot (hraw cs) hreq huniq
  · intro cs m s done hout hring
    exact hring.frame (g.ratio_pos.trans_le g.ratio_le) hout
  · intro m s done done' hlength h hring
    exact hring.congr hlength h
  · intro m s done h
    exact RingHolds.of_closed h
  · intro cs m
    refine ⟨fun row =>
      normRope (pool (qsaCompressGroups (fun row => ((Chunk.rawKeys cs)[row]?).getD 0) m.ring
      (Chunk.prepareMetadata cs) g.numReqSlots g.ringCapacity g.ratio row))
      (firstPosition (Chunk.prepareMetadata cs) g.numReqSlots g.ratio row), ?_, ?_⟩
    · apply storesAt_laneStore
      intro i j c d hrow
      rw [qsa_cmpRows_eq hrow]
      exact ⟨decide_eq_true (Int.natCast_nonneg _), by rw [max_eq_left (Int.natCast_nonneg _),
        Int.toNat_natCast]⟩
    · intro i j c d done n hrow hslot hlen hring hclose
      exact congrArg₂ normRope
        (congrArg pool (qsaCompressGroups_eq (hraw cs) hrow hslot hlen hring hclose))
        (firstPosition_eq hrow hslot hclose)

/-- What a row reads from the ring is a member of its request, the one at the position that it is
read for. -/
def ReadsOwn (g : IndexGeometry) (m : Ragged) (ring : ℕ → α) (row : ℕ) (done : List α) : Prop :=
  ∀ off < g.ratio, readsRing (rowInfo m g.numReqSlots g.ratio row) g.ratio off = true →
    0 ≤ memberPosition (rowInfo m g.numReqSlots g.ratio row) g.ratio off ∧
      done[(memberPosition (rowInfo m g.numReqSlots g.ratio row) g.ratio off).toNat]? =
        some (ring (ringAddr (rowInfo m g.numReqSlots g.ratio row) g.ringCapacity g.ratio off))

omit [Zero α] in
theorem readsOwn_of_closing {ring : ℕ → α}
    (h : Chunk.IsRow cs i j c d) (hslot : c.tableIdx < g.numReqSlots)
    (hlen : c.cachedLen = done.length)
    (hring : RingHolds g.ratio g.ringCapacity ring id c.tableIdx done)
    (hclose : (done.length + d + 1) % g.ratio = 0) :
    ReadsOwn g (Chunk.prepareMetadata cs) ring i done := by
  have hgroup := ratio_le_of_closing hclose
  intro off hoff hreads
  rw [qsa_rowInfo_eq h hslot (hlen.symm ▸ hgroup)] at hreads ⊢
  unfold readsRing memberPosition at hreads
  unfold memberPosition ringAddr memberPosition
  rw [hlen] at hreads ⊢
  simp only [Bool.and_eq_true, Bool.not_eq_true', decide_eq_false_iff_not, not_le] at hreads
  have hposition :
      ((done.length + d : ℕ) : ℤ) - ((g.ratio : ℤ) - 1 - off) =
      (done.length + d + 1 - g.ratio + off : ℕ) := by
    omega
  simp only [hposition] at hreads ⊢
  obtain ⟨x, hx, hval⟩ := @RingHolds.getElem? _ _ _ d _ _ _ _ _ hring hclose off hgroup (by omega)
  refine ⟨Int.natCast_nonneg _, ?_⟩
  rw [Int.toNat_natCast, hx, max_eq_left (Int.natCast_nonneg _), Int.toNat_natCast,
    ← Int.natCast_mod, Int.toNat_natCast, hval]
  rfl

/-- The entries of all complete groups are right, and every row that closes a group reads its own
members. -/
structure EntriesOk (g : IndexGeometry) (pool : List α → γ) (normRope : γ → ℤ → β) (w : World α)
    (c : IndexCache α β) : Prop where
  entry : ∀ s r k, w.live s = some r → (k + 1) * g.ratio ≤ r.done.length →
    c.slab (r.slabRow g k) = normRope (pool (groupMembers g r.done k)) (k * g.ratio : ℕ)
  reads : ∀ reqs pads w', World.Step g w (.forward reqs pads) w' →
    ∀ i r d, w.RequestRow g reqs pads i r d →
    (r.done.length + d + 1) % g.ratio = 0 →
      ReadsOwn g (Chunk.prepareMetadata (w.chunks g reqs pads)) c.ring i r.done

end QsaSparse

/-! ### kpool -/

namespace DsaIndexerKpool

open KpoolCompress

variable [Zero κ] [Zero γ] {pool : List (κ × γ) → β} {cs : List (Chunk (κ × γ))} {c : Chunk (κ × γ)}
  {done : List (κ × γ)} {tailGate : ℕ → γ}

theorem kpoolGroup_eq {k tailK : ℕ → κ}
    {gate : ℕ → γ} (hk : ∀ i x, (Chunk.rawKeys cs)[i]? = some x → k i = Prod.fst x)
    (hgate : ∀ i x, (Chunk.rawKeys cs)[i]? = some x → gate i = Prod.snd x)
    (h : Chunk.IsRow cs i j c d)
    (hslot : c.tableIdx < g.numReqSlots) (hlen : c.cachedLen = done.length)
    (hringK : RingHolds g.ratio g.ratio tailK Prod.fst c.tableIdx done)
    (hringG : RingHolds g.ratio g.ratio tailGate Prod.snd c.tableIdx done)
    (hclose : c.cachedLen + d + 1 = (n + 1) * g.ratio) :
    kpoolGroup k gate tailK tailGate (Chunk.prepareMetadata cs) (g.numReqSlots * g.ratio) g.ratio
      i = groupMembers g (done ++ c.raws) n := by
  have hgroup : g.ratio ≤ c.cachedLen + d + 1 := by
    rw [hclose, add_mul, one_mul]
    exact Nat.le_add_left _ _
  have hfst := chunkMember_group hlen hringK hk h hclose
  have hsnd := chunkMember_group hlen hringG hgate h hclose
  unfold kpoolGroup groupMembers
  rw [map_congr_left fun off hoff => congrArg₂ Prod.mk
    (@kpool_member_eq _ _ _ _ _ _ _ _ _ _ k tailK _ h hslot hgroup (mem_range.mp hoff))
    (@kpool_member_eq _ _ _ _ _ _ _ _ _ _ gate tailGate _ h hslot hgroup (mem_range.mp hoff))]
  -- the two streams are the parts of the members
  apply ext_getElem?
  intro e
  have hfst := congrArg (fun l => l[e]?) hfst
  have hsnd := congrArg (fun l => l[e]?) hsnd
  simp only [getElem?_map] at hfst hsnd ⊢
  cases hrange : (range g.ratio)[e]? with
  | none =>
    rw [hrange] at hfst
    exact (Option.map_eq_none_iff.mp hfst.symm).symm
  | some off =>
    rw [hrange] at hfst hsnd
    obtain ⟨x, hx, hfst⟩ := Option.map_eq_some_iff.mp hfst.symm
    rw [hx] at hsnd
    rw [hx, Option.map_some, Option.some.injEq]
    exact Prod.ext hfst.symm (Option.some.inj hsnd)

/-- The index of kpool. -/
theorem indexStore : IndexStore g (storeIndex g pool) IndexCache.slab
    (fun c s done => RingHolds g.ratio g.ratio c.tailK Prod.fst s done ∧
      RingHolds g.ratio g.ratio c.tailGate Prod.snd s done)
    (fun _ group => pool group) (kpoolDest g) := by
  have hraw : ∀ (cs : List (Chunk (κ × γ))) (i : ℕ) (x : κ × γ), (Chunk.rawKeys cs)[i]? = some x →
      ((Chunk.rawKeys cs)[i]?).getD (0, 0) = x := by
    intro cs i x h
    rw [h]
    rfl
  have hk : ∀ (cs : List (Chunk (κ × γ))) (i : ℕ) (x : κ × γ), (Chunk.rawKeys cs)[i]? = some x →
      (((Chunk.rawKeys cs)[i]?).getD (0, 0)).1 = Prod.fst x :=
        fun cs i x h => congrArg Prod.fst (hraw cs i x h)
  have hgate : ∀ (cs : List (Chunk (κ × γ))) (i : ℕ) (x : κ × γ), (Chunk.rawKeys cs)[i]? = some x →
      (((Chunk.rawKeys cs)[i]?).getD (0, 0)).2 = Prod.snd x :=
        fun cs i x h => congrArg Prod.snd (hraw cs i x h)
  constructor
  · exact isDest_kpoolDest
  · intro cs m j c done hreq hlen hslot huniq hring
    exact ⟨hring.1.store g.ratio_pos le_rfl hlen hslot (hk cs) hreq huniq,
      hring.2.store g.ratio_pos le_rfl hlen hslot (hgate cs) hreq huniq⟩
  · intro cs m s done hout hring
    exact ⟨hring.1.frame g.ratio_pos hout, hring.2.frame g.ratio_pos hout⟩
  · intro m s done done' hlength h hring
    exact ⟨hring.1.congr hlength h, hring.2.congr hlength h⟩
  · intro m s done h
    exact ⟨RingHolds.of_closed h, RingHolds.of_closed h⟩
  · intro cs m
    refine ⟨fun row =>
      pool (kpoolGroup (fun row => (((Chunk.rawKeys cs)[row]?).getD (0, 0)).1)
      (fun row => (((Chunk.rawKeys cs)[row]?).getD (0, 0)).2) m.tailK m.tailGate
      (Chunk.prepareMetadata cs) (g.numReqSlots * g.ratio) g.ratio row), ?_, ?_⟩
    · apply storesAt_laneStore
      intro i j c d hrow
      rw [kpool_cmpRows_eq hrow]
      exact ⟨rfl, Int.toNat_natCast _⟩
    · intro i j c d done n hrow hslot hlen hring hclose
      exact congrArg pool (kpoolGroup_eq (hk cs) (hgate cs) hrow hslot hlen hring.1 hring.2 hclose)

/-- What a row reads from the tail rings is a member of its request, the one at the position that it
is read for. -/
def ReadsOwn (g : IndexGeometry) (m : Ragged) (tailK : ℕ → κ) (tailGate : ℕ → γ) (row : ℕ)
    (done : List (κ × γ)) : Prop :=
  ∀ off < g.ratio, readsRing (rowInfo m g.ratio row) (g.numReqSlots * g.ratio) g.ratio off = true →
    0 ≤ memberPosition (rowInfo m g.ratio row) g.ratio off ∧
      done[(memberPosition (rowInfo m g.ratio row) g.ratio off).toNat]? =
        some (tailK (ringAddr (rowInfo m g.ratio row) g.ratio off),
          tailGate (ringAddr (rowInfo m g.ratio row) g.ratio off))

omit [Zero κ] [Zero γ] in
theorem readsOwn_of_closing {tailK : ℕ → κ} (h : Chunk.IsRow cs i j c d)
    (hlen : c.cachedLen = done.length)
    (hringK : RingHolds g.ratio g.ratio tailK Prod.fst c.tableIdx done)
    (hringG : RingHolds g.ratio g.ratio tailGate Prod.snd c.tableIdx done)
    (hclose : (done.length + d + 1) % g.ratio = 0) :
    ReadsOwn g (Chunk.prepareMetadata cs) tailK tailGate i done := by
  have hgroup := ratio_le_of_closing hclose
  intro off hoff hreads
  rw [kpool_rowInfo_eq h (hlen.symm ▸ hgroup)] at hreads ⊢
  unfold readsRing memberPosition at hreads
  unfold memberPosition ringAddr ringRow memberPosition
  rw [hlen] at hreads ⊢
  simp only [Bool.and_eq_true, Bool.not_eq_true', decide_eq_false_iff_not, not_le] at hreads
  have hposition :
      ((done.length + d : ℕ) : ℤ) - ((g.ratio : ℤ) - 1 - off) =
      (done.length + d + 1 - g.ratio + off : ℕ) := by
    omega
  simp only [hposition] at hreads ⊢
  have hlt : done.length + d + 1 - g.ratio + off < done.length := by omega
  obtain ⟨x, hx, hfst⟩ := @RingHolds.getElem? _ _ _ d _ _ _ _ _ hringK hclose off hgroup hlt
  obtain ⟨y, hy, hsnd⟩ := @RingHolds.getElem? _ _ _ d _ _ _ _ _ hringG hclose off hgroup hlt
  rw [hx, Option.some.injEq] at hy
  subst hy
  have haddr :
      (c.tableIdx : ℤ) * g.ratio + ((done.length + d + 1 - g.ratio + off : ℕ) : ℤ) % g.ratio =
      (c.tableIdx * g.ratio + (done.length + d + 1 - g.ratio + off) % g.ratio : ℕ) := by
    push_cast
    rfl
  refine ⟨Int.natCast_nonneg _, ?_⟩
  rw [haddr, Int.toNat_natCast, max_eq_left (Int.natCast_nonneg _), Int.toNat_natCast, hfst, hsnd]
  exact hx

/-- The entries of all complete groups are right, and every row that closes a group reads its own
members. -/
structure EntriesOk (g : IndexGeometry) (pool : List (κ × γ) → β) (w : World (κ × γ))
    (c : IndexCache κ γ β) :
    Prop where
  entry : ∀ s r k, w.live s = some r → (k + 1) * g.ratio ≤ r.done.length →
    c.slab (r.slabRow g k) = pool (groupMembers g r.done k)
  reads : ∀ reqs pads w', World.Step g w (.forward reqs pads) w' →
    ∀ i r d, w.RequestRow g reqs pads i r d →
    (r.done.length + d + 1) % g.ratio = 0 →
    ReadsOwn g (Chunk.prepareMetadata (w.chunks g reqs pads)) c.tailK c.tailGate i r.done

end DsaIndexerKpool

/-! ### Every schedule -/

/-- The row of a request, as the kernels see it. -/
theorem World.RequestRow.cases {r : IndexReq τ} (h : w.RequestRow g reqs pads i r d)
    (hok : w.Ok g) :
    ∃ j c, Chunk.IsRow (w.chunks g reqs pads) i j c d ∧ c.tableIdx < g.numReqSlots ∧
      c.cachedLen = r.done.length ∧
      w.live c.tableIdx = some r := by
  obtain ⟨j, q, -, hlive, hrow⟩ := h.exists_isRow
  have hslot := hok.slot_lt q.1 r hlive
  unfold IndexGeometry.dummySlot at hslot
  have hchunk := chunkOf_eq g q.2 hlive
  refine ⟨j, w.chunkOf g q, hrow, ?_, ?_, ?_⟩
  · rw [hchunk]
    show q.1 < g.numReqSlots
    omega
  · rw [hchunk]
  · rw [hchunk]
    exact hlive

theorem QsaSparse.entriesOk_of_indexRun [Zero α] {pool : List α → γ} {normRope : γ → ℤ → β}
    {w : World α} {c : IndexCache α β} (hrun : IndexRun g (updateIndexCache g pool normRope) w c) :
    EntriesOk g pool normRope w c := by
  obtain ⟨hok, hmem⟩ := hrun.ok indexStore
  constructor
  · exact hmem.live
  · intro reqs pads w' _ i r d hreq hclose
    obtain ⟨j, b, hrow, hslot, hlen, hlive⟩ := hreq.cases hok
    exact readsOwn_of_closing hrow hslot hlen (hmem.ring _ r hlive) hclose

theorem DsaIndexerKpool.entriesOk_of_indexRun [Zero κ] [Zero γ] {pool : List (κ × γ) → β}
    {w : World (κ × γ)}
    {c : IndexCache κ γ β} (hrun : IndexRun g (storeIndex g pool) w c) : EntriesOk g pool w c := by
  obtain ⟨hok, hmem⟩ := hrun.ok indexStore
  constructor
  · exact hmem.live
  · intro reqs pads w' _ i r d hreq hclose
    obtain ⟨j, b, hrow, -, hlen, hlive⟩ := hreq.cases hok
    have hring := hmem.ring _ r hlive
    exact readsOwn_of_closing hrow hlen hring.1 hring.2 hclose

/-- Both indexes, from any memory and under any schedule. -/
theorem indexEntriesOk_of_indexRun [Zero α] [Zero κ] [Zero γ] {δ ε : Type} (g : IndexGeometry)
    (pool : List α → δ) (normRope : δ → ℤ → β) (gatePool : List (κ × γ) → ε) :
    (∀ w c, IndexRun g (QsaSparse.updateIndexCache g pool normRope) w c →
      QsaSparse.EntriesOk g pool normRope w c) ∧
      ∀ w c, IndexRun g (DsaIndexerKpool.storeIndex g gatePool) w c →
        DsaIndexerKpool.EntriesOk g gatePool w c :=
  ⟨fun _ _ h => QsaSparse.entriesOk_of_indexRun h, fun _ _ h =>
    DsaIndexerKpool.entriesOk_of_indexRun h⟩

/-! ### A slot that is used again -/

/-- Pages of two tokens and of one group, and two slots. -/
def exampleGeometry : IndexGeometry where
  pageSize := 2
  ratio := 2
  ringCapacity := 2
  numPages := 4
  numReqSlots := 3
  ratio_pos := by decide
  page_pos := by decide
  ratio_dvd := by decide
  ratio_le := by decide

def exampleStarted : World τ where
  live := Function.update (Function.update (fun _ => none) 0 (some ⟨[], [0]⟩)) 1 (some ⟨[], [1]⟩)
  book := fun _ => none

def exampleReqs (a b x y : τ) : List (ℕ × List τ) := [(0, [a, b]), (1, [x, y])]

/-- The second request has left, and its slot has a request with the page of the first one. -/
def exampleReused (a b x y : τ) : World τ where
  live := Function.update (fun s => (exampleStarted.live s).map fun r =>
    { r with done := r.done ++ newsOf (exampleReqs a b x y) s }) 1 (some ⟨[a, b], [0, 2]⟩)
  book := Function.update (fun _ => none) 0 (some (0, [a, b]))

section Runs

variable {M : Type} {store : List (Chunk τ) → M → M} {m : M}

theorem exampleStarted_live {s : ℕ} {r : IndexReq τ} (h : exampleStarted.live s = some r) :
    s = 0 ∧ r.pages = [0] ∨ s = 1 ∧ r.pages = [1] := by
  unfold exampleStarted at h
  rcases update_eq_some h with ⟨rfl, rfl⟩ | ⟨-, h⟩
  · exact Or.inr ⟨rfl, rfl⟩
  · rcases update_eq_some h with ⟨rfl, rfl⟩ | ⟨-, h⟩
    · exact Or.inl ⟨rfl, rfl⟩
    · exact absurd h (by simp)

theorem indexRun_exampleStarted : IndexRun exampleGeometry store exampleStarted m := by
  have h := (@IndexRun.start τ M exampleGeometry store m).step
    (@World.Step.enter τ _ _ 0 ⟨[], []⟩ rfl (by decide) rfl (by simp))
  have h := h.step (@World.Step.grow τ _ _ 0 0 ⟨[], []⟩ rfl (by decide) (by
    rintro (hbook | ⟨s, r, hlive, hpage⟩)
    · exact hbook rfl
    · rcases update_eq_some hlive with ⟨rfl, rfl⟩ | ⟨-, hlive⟩
      · exact absurd hpage (by simp)
      · exact absurd hlive (by simp [World.empty])))
  have h := h.step (@World.Step.enter τ _ _ 1 ⟨[], []⟩ rfl (by decide) rfl (by simp))
  have h := h.step (@World.Step.grow τ _ _ 1 1 ⟨[], []⟩ rfl (by decide) (by
    rintro (hbook | ⟨s, r, hlive, hpage⟩)
    · exact hbook rfl
    · simp only [Function.update_idem] at hlive
      rcases update_eq_some hlive with ⟨rfl, rfl⟩ | ⟨-, hlive⟩
      · exact absurd hpage (by simp)
      · rcases update_eq_some hlive with ⟨rfl, rfl⟩ | ⟨-, hlive⟩
        · exact absurd hpage (by simp)
        · exact absurd hlive (by simp [World.empty])))
  simp only [Function.update_idem] at h
  exact h

theorem indexRun_exampleReused (a b x y : τ) :
    IndexRun exampleGeometry store (exampleReused a b x y)
    (store (exampleStarted.chunks exampleGeometry (exampleReqs a b x y) []) m) := by
  have h := (@indexRun_exampleStarted τ M store m).step
    (@World.Step.forward τ _ _ (exampleReqs a b x y) [] (by simp [exampleReqs]) (by
      intro q hq
      rcases mem_cons.mp hq with rfl | hq
      · exact ⟨⟨[], [0]⟩, rfl, le_rfl⟩
      · rw [mem_singleton.mp hq]
        exact ⟨⟨[], [1]⟩, rfl, le_rfl⟩))
  have h := h.step (@World.Step.publish τ _ _ 0 0 0 ⟨[a, b], [0]⟩ rfl le_rfl rfl)
  have h := h.step (@World.Step.finish τ _ _ 1)
  have h := h.step (@World.Step.enter τ _ _ 1 ⟨[a, b], [0]⟩ rfl (by decide) rfl (by
    intro i page hpage
    cases i with
    | zero =>
      rw [getElem?_cons_zero, Option.some.injEq] at hpage
      subst hpage
      rfl
    | succ i => exact absurd hpage (by simp)))
  have h := h.step (@World.Step.grow τ _ _ 1 2 ⟨[a, b], [0]⟩ rfl (by decide) (by
    rintro (hbook | ⟨s, r, hlive, hpage⟩)
    · exact hbook rfl
    · simp only [Function.update_idem] at hlive
      rcases update_eq_some hlive with ⟨rfl, rfl⟩ | ⟨hne, hlive⟩
      · exact absurd hpage (by simp)
      · obtain ⟨r', hr', rfl⟩ := Option.map_eq_some_iff.mp hlive
        rcases exampleStarted_live hr' with ⟨-, hpages⟩ | ⟨-, hpages⟩
        · exact absurd (hpages ▸ hpage) (by simp)
        · exact absurd (hpages ▸ hpage) (by simp)))
  simp only [Function.update_idem] at h
  exact h

end Runs

/-- After it, both indexes. -/
theorem indexEntriesOk_reused :
    QsaSparse.EntriesOk exampleGeometry id (fun x _ => x) (exampleReused 1 2 7 8)
        (QsaSparse.updateIndexCache exampleGeometry id (fun x _ => x)
          (exampleStarted.chunks exampleGeometry (exampleReqs 1 2 7 8) [])
          ⟨fun _ => 0, fun _ => []⟩) ∧
      DsaIndexerKpool.EntriesOk exampleGeometry id (exampleReused (1, 1) (2, 1) (7, 1) (8, 1))
        (DsaIndexerKpool.storeIndex exampleGeometry id
          (exampleStarted.chunks exampleGeometry (exampleReqs (1, 1) (2, 1) (7, 1) (8, 1)) [])
          (⟨fun _ => 0, fun _ => 0, fun _ => []⟩ : DsaIndexerKpool.IndexCache ℕ ℕ (List (ℕ × ℕ))))
          :=
  ⟨(indexEntriesOk_of_indexRun exampleGeometry (id : List ℕ → List ℕ) (fun x _ => x)
      (id : List (ℕ × ℕ) → List (ℕ × ℕ))).1 _ _ (indexRun_exampleReused 1 2 7 8),
    (indexEntriesOk_of_indexRun exampleGeometry (id : List ℕ → List ℕ) (fun x _ => x)
      (id : List (ℕ × ℕ) → List (ℕ × ℕ))).2 _ _
        (indexRun_exampleReused (1, 1) (2, 1) (7, 1) (8, 1))⟩

/-- A row that closes no group can read a member of the request that had the slot before. -/
theorem not_readsOwn_of_open :
    ¬∀ (g : IndexGeometry) (w : World ℕ) (c : QsaSparse.IndexCache ℕ (List ℕ)),
      IndexRun g (QsaSparse.updateIndexCache g id fun x _ => x) w c →
      ∀ reqs pads w', World.Step g w (.forward reqs pads) w' →
        ∀ i r d, w.RequestRow g reqs pads i r d →
        QsaSparse.ReadsOwn g (Chunk.prepareMetadata (w.chunks g reqs pads)) c.ring i r.done := by
  intro h
  have hrow :
    (exampleReused 1 2 7 8).RequestRow exampleGeometry [(1, [3])] [] 0 ⟨[1, 2], [0, 2]⟩ 0 :=
    ⟨⟨0, (1, [3]), rfl, rfl, rfl, by decide, rfl⟩⟩
  have hreads := h exampleGeometry (exampleReused 1 2 7 8) _
    (indexRun_exampleReused 1 2 7 8 (m := ⟨fun _ => 0, fun _ => []⟩))
    [(1, [3])] [] _ (World.Step.forward (by decide) (by
      intro q hq
      rw [mem_singleton.mp hq]
      exact ⟨⟨[1, 2], [0, 2]⟩, rfl, by decide⟩)) 0 ⟨[1, 2], [0, 2]⟩ 0 hrow
  -- the row has position 2, and the ring still has 8 where its member 2 would be
  exact absurd (hreads 0 (by decide) (by decide)).2 (by decide)

end FreeToken
