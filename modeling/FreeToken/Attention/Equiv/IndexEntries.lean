import FreeToken.Attention.Equiv.IndexWorld

/-!
# The index entries of every schedule

`IndexStore` says what a forward of an index does: the rings keep the members of the open groups,
and a group that is closed gets its entry.  From that, every world that a schedule leads to has the
entries of all its complete groups (`MemoryOk`), whoever has written them.
-/

namespace FreeToken

open Function List

variable {τ M β : Type} {g : IndexGeometry} {w w' : World τ} {store : List (Chunk τ) → M → M}
  {slab : M → ℕ → β} {holds : M → ℕ → List τ → Prop} {entry : ℕ → List τ → β}
  {dest : Chunk τ → ℕ → ℕ} {m : M} {reqs : List (ℕ × List τ)} {pads : List (ℕ × τ)}

structure IndexStore (g : IndexGeometry) (store : List (Chunk τ) → M → M) (slab : M → ℕ → β)
    (holds : M → ℕ → List τ → Prop) (entry : ℕ → List τ → β) (dest : Chunk τ → ℕ → ℕ) : Prop where
  isDest : IsDest g dest
  ring_store : ∀ cs m j c done, cs[j]? = some c → c.cachedLen = done.length →
    c.tableIdx < g.numReqSlots →
    (∀ (j' : ℕ) (c' : Chunk τ), cs[j']? = some c' → c'.tableIdx = c.tableIdx → j' = j) →
      holds m c.tableIdx done →
    holds (store cs m) c.tableIdx (done ++ c.raws)
  ring_frame : ∀ cs m s done, (∀ (j : ℕ) (c : Chunk τ), cs[j]? = some c → c.tableIdx ≠ s) →
    holds m s done →
    holds (store cs m) s done
  ring_congr : ∀ m s done done', done'.length = done.length →
    (∀ q, done.length / g.ratio * g.ratio ≤ q → done'[q]? = done[q]?) → holds m s done →
      holds m s done'
  ring_closed : ∀ m s done, done.length % g.ratio = 0 → holds m s done
  slab_store : ∀ cs m, ∃ val : ℕ → β, StoresAt cs dest val (slab m) (slab (store cs m)) ∧
    ∀ i j c d done n, Chunk.IsRow cs i j c d → c.tableIdx < g.numReqSlots →
      c.cachedLen = done.length →
      holds m c.tableIdx done → c.cachedLen + d + 1 = (n + 1) * g.ratio →
      val i = entry n (groupMembers g (done ++ c.raws) n)

/-- The memory has what the world needs: the open groups in the rings, and the entries of all
complete groups. -/
structure MemoryOk (g : IndexGeometry) (slab : M → ℕ → β) (holds : M → ℕ → List τ → Prop)
    (entry : ℕ → List τ → β) (w : World τ) (m : M) : Prop where
  ring : ∀ s r, w.live s = some r → holds m s r.done
  live : ∀ s r k, w.live s = some r → (k + 1) * g.ratio ≤ r.done.length →
    slab m (r.slabRow g k) = entry k (groupMembers g r.done k)
  book : ∀ page i members, w.book page = some (i, members) → members.length = g.pageSize ∧
    ∀ q < g.blocks, slab m (page * g.blocks + q) = entry (i * g.blocks + q)
      (groupMembers g members q)

/-! ### The batch of a forward -/

variable {r : IndexReq τ}

/-- The chunk of a running request. -/
theorem chunkOf_eq (g : IndexGeometry) {s : ℕ} (news : List τ) (h : w.live s = some r) :
    w.chunkOf g (s, news) =
      { tableIdx := s, cachedLen := r.done.length, raws := news, pageTable := r.pageTable g } := by
  unfold World.chunkOf
  rw [h]
  rfl

variable {c : Chunk τ} {j : ℕ}

theorem chunks_getElem? (h : (w.chunks g reqs pads)[j]? = some c) :
    (∃ q, reqs[j]? = some q ∧ c = w.chunkOf g q) ∨ ∃ q ∈ pads, c = padChunk g q := by
  unfold World.chunks at h
  by_cases hj : j < reqs.length
  · rw [getElem?_append_left (by rw [length_map]; exact hj), getElem?_map,
      getElem?_eq_getElem hj] at h
    exact Or.inl ⟨reqs[j], getElem?_eq_getElem hj, (Option.some.inj h).symm⟩
  · rw [getElem?_append_right (by rw [length_map]; omega)] at h
    have hmem := mem_of_getElem? h
    obtain ⟨q, hq, hc⟩ := mem_map.mp hmem
    exact Or.inr ⟨q, hq, hc.symm⟩

variable {q : ℕ × List τ}

theorem chunks_getElem?_of_reqs (h : reqs[j]? = some q) :
    (w.chunks g reqs pads)[j]? = some (w.chunkOf g q) := by
  have hj := (List.getElem?_eq_some_iff.mp h).1
  unfold World.chunks
  rw [getElem?_append_left (by rw [length_map]; exact hj), getElem?_map, h]
  rfl

theorem chunks_unique (hok : w.Ok g) (hnodup : (reqs.map Prod.fst).Nodup)
    (hq : reqs[j]? = some q) (hlive : w.live q.1 = some r) {j' : ℕ} {c' : Chunk τ}
    (h : (w.chunks g reqs pads)[j']? = some c') (hidx : c'.tableIdx = q.1) : j' = j := by
  rcases chunks_getElem? h with ⟨q', hq', rfl⟩ | ⟨q', -, rfl⟩
  · have hidx : q'.1 = q.1 := hidx
    have hj := (List.getElem?_eq_some_iff.mp hq).1
    have hj' := (List.getElem?_eq_some_iff.mp hq').1
    have hget : (reqs.map Prod.fst)[j']? = (reqs.map Prod.fst)[j]? := by
      rw [getElem?_map, getElem?_map, hq, hq']
      exact congrArg some hidx
    exact (getElem?_inj (by rw [length_map]; exact hj') hnodup).mp hget
  · -- padding rows have a slot of their own
    have hslot := hok.slot_lt q.1 r hlive
    have hidx : g.dummySlot = q.1 := hidx
    omega

/-! ### Where the rows of a forward go -/

theorem page_of_position {news : List τ} {r : IndexReq τ} {p : ℕ}
    (hfits : r.done.length + news.length ≤ r.pages.length * g.pageSize)
    (hp : p < r.done.length + news.length) :
    ∃ page, r.pages[p / g.pageSize]? = some page ∧
      r.pageTable g p / g.ratio = page * g.blocks + p % g.pageSize / g.ratio := by
  have hlt : p / g.pageSize < r.pages.length := by
    rw [Nat.div_lt_iff_lt_mul g.page_pos]
    omega
  refine ⟨r.pages[p / g.pageSize], getElem?_eq_getElem hlt, ?_⟩
  rw [pageTable_div, getElem?_eq_getElem hlt]
  rfl

/-- A row of a forward that goes to a row of the pages: it is the last one of its group, in a page
that its request has for itself, or it is a padding row. -/
theorem dest_cases (hdest : IsDest g dest)
    (hreqs : ∀ q ∈ reqs, ∃ r, w.live q.1 = some r ∧ r.done.length + q.2.length ≤ r.pages.length *
      g.pageSize)
    {i d : ℕ} (h : Chunk.IsRow (w.chunks g reqs pads) i j c d) {page n : ℕ}
    (hpage : page < g.dummyPage)
    (hn : n < g.pageSize) (heq : dest c (c.cachedLen + d) = page * g.blocks + n / g.ratio) :
    ∃ q r, reqs[j]? = some q ∧ c = w.chunkOf g q ∧ w.live q.1 = some r ∧
      r.pages[(r.done.length + d) / g.pageSize]? = some page ∧
      r.done.length < ((r.done.length + d) / g.pageSize + 1) * g.pageSize ∧
      (r.done.length + d) % g.pageSize / g.ratio = n / g.ratio ∧
      (r.done.length + d + 1) % g.ratio = 0 := by
  have hscratch : page * g.blocks + n / g.ratio < g.cmpScratchBase := by
    apply row_lt_scratch _ hn
    unfold IndexGeometry.dummyPage at hpage
    omega
  have hrow : dest c (c.cachedLen + d) = c.pageTable (c.cachedLen + d) / g.ratio := by
    rcases hdest.row_or_scratch c (c.cachedLen + d) with hrow | hge
    · exact hrow
    · omega
  rcases chunks_getElem? h.req with ⟨q, hq, rfl⟩ | ⟨q, -, rfl⟩
  · obtain ⟨r, hlive, hfits⟩ := hreqs q (mem_of_getElem? hq)
    have hchunk := chunkOf_eq g q.2 hlive
    have htoken : d < q.2.length := by
      have htoken := h.token
      rw [hchunk] at htoken
      exact htoken
    rw [hchunk] at hrow heq
    have hrow : dest _ (r.done.length + d) = r.pageTable g (r.done.length + d) / g.ratio := hrow
    have heq : dest _ (r.done.length + d) = page * g.blocks + n / g.ratio := heq
    obtain ⟨page', hpage', hslab⟩ := page_of_position hfits (Nat.add_lt_add_left htoken _)
    rw [hrow, hslab] at heq
    obtain ⟨rfl, hin⟩ := row_inj (Nat.mod_lt _ g.page_pos) hn heq
    have hopen : r.done.length < ((r.done.length + d) / g.pageSize + 1) * g.pageSize := by
      have hdiv := Nat.div_add_mod' (r.done.length + d) g.pageSize
      have hmod := Nat.mod_lt (r.done.length + d) g.page_pos
      rw [add_mul, one_mul]
      omega
    refine ⟨q, r, hq, rfl, hlive, hpage', hopen, hin, ?_⟩
    by_contra hne
    have hge := hdest.scratch (w.chunkOf g q) (r.done.length + d)
      (by rw [hchunk]; exact pageTable_mod r _) hne
    rw [hchunk, hrow, hslab] at hge
    omega
  · -- the page of the padding is another one
    have hpad :
        (padChunk g q).pageTable ((padChunk g q).cachedLen + d) / g.ratio = g.dummyPage * g.blocks +
        0 / g.ratio := by
      show g.dummyPage * g.pageSize / g.ratio = _
      have hdiv := div_ratio g g.dummyPage 0
      rw [add_zero] at hdiv
      exact hdiv
    rw [hrow, hpad] at heq
    have hsame := (row_inj g.page_pos hn heq).1
    omega

/-- The last token of a group, by the place of its page and its group in the page. -/
theorem position_eq {p p' : ℕ} (hpage : p / g.pageSize = p' / g.pageSize)
    (hgroup : p % g.pageSize / g.ratio = p' % g.pageSize / g.ratio) (hclose : (p + 1) % g.ratio = 0)
    (hclose' : (p' + 1) % g.ratio = 0) : p = p' := by
  have hp := Nat.div_add_mod' p g.pageSize
  have hp' := Nat.div_add_mod' p' g.pageSize
  have hin := Nat.div_add_mod' (p % g.pageSize) g.ratio
  have hin' := Nat.div_add_mod' (p' % g.pageSize) g.ratio
  rw [mod_page_mod_ratio, (closing_iff g p).mpr hclose] at hin
  rw [mod_page_mod_ratio, (closing_iff g p').mpr hclose'] at hin'
  rw [hpage] at hp
  rw [hgroup] at hin
  omega

theorem dest_unique (hok : w.Ok g) (hdest : IsDest g dest) (hnodup : (reqs.map Prod.fst).Nodup)
    (hreqs : ∀ q ∈ reqs, ∃ r, w.live q.1 = some r ∧ r.done.length + q.2.length ≤ r.pages.length *
      g.pageSize) {i d : ℕ} (hq : reqs[j]? = some q) (hlive : w.live q.1 = some r)
    (h : Chunk.IsRow (w.chunks g reqs pads) i j (w.chunkOf g q) d)
    (hclose : (r.done.length + d + 1) % g.ratio = 0)
    {i' j' d' : ℕ} {c' : Chunk τ} (h' : Chunk.IsRow (w.chunks g reqs pads) i' j' c' d')
    (heq : dest c' (c'.cachedLen + d') = dest (w.chunkOf g q) ((w.chunkOf g q).cachedLen + d)) :
    i' = i := by
  have hchunk := chunkOf_eq g q.2 hlive
  obtain ⟨r₀, hlive₀, hfits⟩ := hreqs q (mem_of_getElem? hq)
  rw [hlive, Option.some.injEq] at hlive₀
  subst hlive₀
  have htoken : d < q.2.length := by
    have htoken := h.token
    rw [hchunk] at htoken
    exact htoken
  obtain ⟨page, hpage, hslab⟩ := page_of_position hfits (Nat.add_lt_add_left htoken _)
  have hrow : dest (w.chunkOf g q) ((w.chunkOf g q).cachedLen + d) =
      page * g.blocks + (r.done.length + d) % g.pageSize / g.ratio := by
    have hcl := hdest.closing (w.chunkOf g q) (r.done.length + d)
      (by rw [hchunk]; exact pageTable_mod r _) hclose
    have hlen : (w.chunkOf g q).cachedLen = r.done.length := by rw [hchunk]
    rw [hlen, hcl, hchunk]
    exact hslab
  rw [hrow] at heq
  obtain ⟨q', r', hq', rfl, hlive', hpage', hopen', hin, hclose'⟩ :=
    dest_cases hdest hreqs h' (hok.page_lt q.1 r hlive page (mem_pages_iff.mpr ⟨_, hpage⟩))
      (Nat.mod_lt _ g.page_pos) heq
  -- the page is one request's, and there the position is the same
  obtain ⟨hslot, hplace⟩ := (hok.own q'.1 r' _ page hlive' hpage' hopen').2 q.1 r _ hlive hpage
  have hj : j' = j := chunks_unique hok hnodup hq hlive h'.req (by
    show q'.1 = q.1
    exact hslot.symm)
  subst hj
  rw [hq, Option.some.injEq] at hq'
  subst hq'
  rw [hlive, Option.some.injEq] at hlive'
  subst hlive'
  have hpos := position_eq hplace.symm hin hclose' hclose
  rw [h'.row, h.row]
  omega

theorem dest_ne_slabRow (hok : w.Ok g) (hdest : IsDest g dest)
    (hreqs : ∀ q ∈ reqs, ∃ r, w.live q.1 = some r ∧ r.done.length + q.2.length ≤ r.pages.length *
      g.pageSize) {s k : ℕ} (hlive : w.live s = some r) (hk : (k + 1) * g.ratio ≤ r.done.length)
    {i d : ℕ} (h : Chunk.IsRow (w.chunks g reqs pads) i j c d) :
    dest c (c.cachedLen + d) ≠ r.slabRow g k := by
  intro heq
  have hpos := g.ratio_pos
  have hk' : k * g.ratio + g.ratio ≤ r.done.length := by
    rw [← Nat.succ_mul]
    exact hk
  obtain ⟨page, hpage, hslab⟩ := @page_of_position τ g [] r (k * g.ratio)
    (by rw [length_nil, add_zero]; exact hok.fits s r hlive)
    (show k * g.ratio < r.done.length + 0 by omega)
  rw [show r.slabRow g k = r.pageTable g (k * g.ratio) / g.ratio from rfl, hslab] at heq
  obtain ⟨q, r', -, rfl, hlive', hpage', hopen, hin, -⟩ :=
    dest_cases hdest hreqs h (hok.page_lt s r hlive page (mem_pages_iff.mpr ⟨_, hpage⟩))
      (Nat.mod_lt _ g.page_pos) heq
  obtain ⟨rfl, hplace⟩ := (hok.own q.1 r' _ page hlive' hpage' hopen).2 s r _ hlive hpage
  rw [hlive, Option.some.injEq] at hlive'
  subst hlive'
  -- the same page and the same group in it, but the token comes later
  have hp := Nat.div_add_mod' (r.done.length + d) g.pageSize
  have hp' := Nat.div_add_mod' (k * g.ratio) g.pageSize
  have hr := Nat.div_add_mod' ((r.done.length + d) % g.pageSize) g.ratio
  have hr' := Nat.div_add_mod' (k * g.ratio % g.pageSize) g.ratio
  have hmod := Nat.mod_lt ((r.done.length + d) % g.pageSize) hpos
  rw [hplace] at hp'
  rw [hin] at hr
  omega

theorem dest_ne_book (hok : w.Ok g) (hdest : IsDest g dest)
    (hreqs : ∀ q ∈ reqs, ∃ r, w.live q.1 = some r ∧ r.done.length + q.2.length ≤ r.pages.length *
      g.pageSize) {page n : ℕ} {x : ℕ × List τ} (hbook : w.book page = some x) (hn : n < g.blocks)
    {i d : ℕ} (h : Chunk.IsRow (w.chunks g reqs pads) i j c d) :
    dest c (c.cachedLen + d) ≠ page * g.blocks + n := by
  intro heq
  have hlt : n * g.ratio < g.pageSize := by
    rw [← g.blocks_mul]
    exact Nat.mul_lt_mul_of_pos_right hn g.ratio_pos
  have heq : dest c (c.cachedLen + d) = page * g.blocks + n * g.ratio / g.ratio := by
    rw [Nat.mul_div_cancel _ g.ratio_pos]
    exact heq
  obtain ⟨q, r, -, -, hlive, hpage, hopen, -, -⟩ :=
    dest_cases hdest hreqs h (hok.book_lt page x hbook) hlt heq
  rw [(hok.own q.1 r _ page hlive hpage hopen).1] at hbook
  exact absurd hbook (by simp)

/-! ### Members of groups and pages -/

variable {done : List τ}

theorem groupMembers_append {news : List τ} {k : ℕ} (hk : (k + 1) * g.ratio ≤ done.length) :
    groupMembers g (done ++ news) k = groupMembers g done k := by
  rw [add_mul, one_mul] at hk
  unfold groupMembers
  rw [drop_append_of_le_length (by omega), take_append_of_le_length (by rw [length_drop]; omega)]

theorem groupMembers_page {i n : ℕ} (hn : n < g.blocks) :
    groupMembers g (pageMembers g done i) n = groupMembers g done (i * g.blocks + n) := by
  have hmul : (n + 1) * g.ratio ≤ g.pageSize := by
    rw [← g.blocks_mul]
    exact Nat.mul_le_mul_right _ hn
  rw [add_mul, one_mul] at hmul
  unfold groupMembers pageMembers
  rw [drop_take, take_take, drop_drop, min_eq_left (by omega), add_mul, Nat.mul_assoc, g.blocks_mul]

theorem slabRow_eq {r : IndexReq τ} {k page : ℕ} (hpage : r.pages[k / g.blocks]? = some page) :
    r.slabRow g k = page * g.blocks + k % g.blocks := by
  have hmul : k * g.ratio / g.pageSize = k / g.blocks := by
    rw [← g.blocks_mul, Nat.mul_div_mul_right _ _ g.ratio_pos]
  have hmod : k * g.ratio % g.pageSize / g.ratio = k % g.blocks := by
    rw [← g.blocks_mul, Nat.mul_mod_mul_right, Nat.mul_div_cancel _ g.ratio_pos]
  unfold IndexReq.slabRow
  rw [pageTable_div, hmul, hmod, hpage]
  rfl

theorem group_page_lt {n k L : ℕ} (hfits : L ≤ n * g.pageSize) (hk : (k + 1) * g.ratio ≤ L) :
    k / g.blocks < n := by
  rw [Nat.div_lt_iff_lt_mul g.blocks_pos]
  rw [← g.blocks_mul, ← Nat.mul_assoc] at hfits
  have hle : (k + 1) * g.ratio ≤ n * g.blocks * g.ratio := hk.trans hfits
  exact Nat.lt_of_succ_le (Nat.le_of_mul_le_mul_right hle g.ratio_pos)

/-! ### Every step keeps the memory right -/

theorem MemoryOk.start : MemoryOk g slab holds entry (World.empty : World τ) m := by
  constructor
  · intro s r h
    exact absurd h (by simp [World.empty])
  · intro s r k h
    exact absurd h (by simp [World.empty])
  · intro page i members h
    exact absurd h (by simp [World.empty])

theorem MemoryOk.enter (hstore : IndexStore g store slab holds entry dest)
    (hmem : MemoryOk g slab holds entry w m)
    {slot : ℕ} {r : IndexReq τ} (hfull : r.done.length = r.pages.length * g.pageSize)
    (hhit : ∀ i page, r.pages[i]? = some page → w.book page = some (i, pageMembers g r.done i)) :
    MemoryOk g slab holds entry { w with live := update w.live slot (some r) } m := by
  constructor
  · intro s r' h
    rcases update_eq_some h with ⟨-, rfl⟩ | ⟨-, h⟩
    · -- the hit ends with a page, so there is no open group
      apply hstore.ring_closed
      rw [hfull, ← g.blocks_mul, ← Nat.mul_assoc, Nat.mul_mod_left]
    · exact hmem.ring s r' h
  · intro s r' k h hk
    rcases update_eq_some h with ⟨-, rfl⟩ | ⟨-, h⟩
    · have hlt := group_page_lt hfull.le hk
      have hpage : r'.pages[k / g.blocks]? = some r'.pages[k / g.blocks] := getElem?_eq_getElem hlt
      have hmod := Nat.mod_lt k g.blocks_pos
      rw [slabRow_eq hpage, (hmem.book _ _ _ (hhit _ _ hpage)).2 _ hmod, groupMembers_page hmod,
        Nat.div_add_mod']
    · exact hmem.live s r' k h hk
  · exact hmem.book

theorem MemoryOk.grow (hmem : MemoryOk g slab holds entry w m) (hok : w.Ok g) {slot page : ℕ}
    {r : IndexReq τ} (hlive : w.live slot = some r) :
    MemoryOk g slab holds entry
      { w with live := update w.live slot (some { r with pages := r.pages ++ [page] }) } m := by
  constructor
  · intro s r' h
    rcases update_eq_some h with ⟨rfl, rfl⟩ | ⟨-, h⟩
    · exact hmem.ring s r hlive
    · exact hmem.ring s r' h
  · intro s r' k h hk
    rcases update_eq_some h with ⟨rfl, rfl⟩ | ⟨-, h⟩
    · have hlt := group_page_lt (hok.fits s r hlive) hk
      have hpage : r.pages[k / g.blocks]? = some r.pages[k / g.blocks] := getElem?_eq_getElem hlt
      have hpage' : (r.pages ++ [page])[k / g.blocks]? = some r.pages[k / g.blocks] := by
        rw [getElem?_append_left hlt]
        exact hpage
      have hold := hmem.live s r k hlive hk
      rw [slabRow_eq hpage] at hold
      rw [slabRow_eq hpage']
      exact hold
    · exact hmem.live s r' k h hk
  · exact hmem.book

theorem MemoryOk.publish (hmem : MemoryOk g slab holds entry w m) {slot i page : ℕ} {r : IndexReq τ}
    (hlive : w.live slot = some r) (hfull : (i + 1) * g.pageSize ≤ r.done.length)
    (hpage : r.pages[i]? = some page) :
    MemoryOk g slab holds entry
      { w with book := update w.book page (some (i, pageMembers g r.done i)) } m := by
  constructor
  · exact hmem.ring
  · exact hmem.live
  · intro page' i' members h
    -- a full page is published once all its groups are closed
    by_cases hp : page' = page
    · subst hp
      have h : update w.book page' (some (i, pageMembers g r.done i)) page' = some (i', members) :=
        h
      rw [update_self, Option.some.injEq, Prod.mk.injEq] at h
      obtain ⟨rfl, rfl⟩ := h
      rw [add_mul, one_mul] at hfull
      refine ⟨?_, fun q hq => ?_⟩
      · unfold pageMembers
        rw [length_take, length_drop]
        omega
      · have hdiv : (i * g.blocks + q) / g.blocks = i := by
          rw [mul_comm, Nat.mul_add_div g.blocks_pos, Nat.div_eq_of_lt hq, add_zero]
        have hmod : (i * g.blocks + q) % g.blocks = q := by
          rw [mul_comm, Nat.mul_add_mod, Nat.mod_eq_of_lt hq]
        have hk : (i * g.blocks + q + 1) * g.ratio ≤ r.done.length := by
          have hmul : (i * g.blocks + q + 1) * g.ratio ≤ (i * g.blocks + g.blocks) * g.ratio :=
            Nat.mul_le_mul_right _ (by omega)
          rw [add_mul (i * g.blocks), Nat.mul_assoc, g.blocks_mul] at hmul
          omega
        have hold := hmem.live slot r (i * g.blocks + q) hlive hk
        rw [@slabRow_eq _ g _ _ page' (by rw [hdiv]; exact hpage), hmod] at hold
        rw [hold, groupMembers_page hq]
    · have h : update w.book page (some (i, pageMembers g r.done i)) page' = some (i', members) := h
      rw [update_of_ne hp] at h
      exact hmem.book page' i' members h

def replacePage (g : IndexGeometry) (done members : List τ) (i : ℕ) : List τ :=
  done.take (i * g.pageSize) ++ members ++ done.drop ((i + 1) * g.pageSize)

variable {members : List τ}

theorem replacePage_getElem? {i q : ℕ} (hfull : (i + 1) * g.pageSize ≤ done.length)
    (hlength : members.length = g.pageSize) :
    (replacePage g done members i)[q]? =
      if q / g.pageSize = i then members[q % g.pageSize]? else done[q]? := by
  rw [add_mul, one_mul] at hfull
  have hdiv := Nat.div_add_mod' q g.pageSize
  have hmod := Nat.mod_lt q g.page_pos
  have htake : (done.take (i * g.pageSize)).length = i * g.pageSize := by
    rw [length_take]
    omega
  unfold replacePage
  rw [append_assoc]
  rcases lt_trichotomy (q / g.pageSize) i with hlt | heq | hgt
  · have hmul : (q / g.pageSize + 1) * g.pageSize ≤ i * g.pageSize := Nat.mul_le_mul_right _ hlt
    rw [add_mul, one_mul] at hmul
    rw [if_neg hlt.ne, getElem?_append_left (by omega), getElem?_take_of_lt (by omega)]
  · subst heq
    rw [if_pos rfl, getElem?_append_right (by omega), htake, getElem?_append_left (by omega)]
    congr 1
    omega
  · have hmul : (i + 1) * g.pageSize ≤ q / g.pageSize * g.pageSize := Nat.mul_le_mul_right _ hgt
    rw [add_mul, one_mul] at hmul
    rw [if_neg hgt.ne', getElem?_append_right (by omega), htake, getElem?_append_right (by omega),
      hlength, getElem?_drop, add_mul, one_mul]
    congr 1
    omega

theorem length_replacePage {i : ℕ} (hfull : (i + 1) * g.pageSize ≤ done.length)
    (hlength : members.length = g.pageSize) :
    (replacePage g done members i).length = done.length := by
  rw [add_mul, one_mul] at hfull
  unfold replacePage
  rw [length_append, length_append, length_take, length_drop, hlength, add_mul, one_mul]
  omega

theorem groupMembers_getElem? {k e : ℕ} :
    (groupMembers g done k)[e]? = if e < g.ratio then done[k * g.ratio + e]? else none := by
  unfold groupMembers
  rw [getElem?_take, getElem?_drop]

theorem group_page {k e : ℕ} (he : e < g.ratio) :
    (k * g.ratio + e) / g.pageSize = k / g.blocks ∧
      (k * g.ratio + e) % g.pageSize = k % g.blocks * g.ratio + e := by
  have hdiv := Nat.div_add_mod' k g.blocks
  have hmod := Nat.mod_lt k g.blocks_pos
  have hin : k % g.blocks * g.ratio + e < g.pageSize := by
    have hmul : (k % g.blocks + 1) * g.ratio ≤ g.blocks * g.ratio := Nat.mul_le_mul_right _ hmod
    rw [add_mul, one_mul, g.blocks_mul] at hmul
    omega
  have hsplit : k * g.ratio + e = k / g.blocks * g.pageSize + (k % g.blocks * g.ratio + e) := by
    have hk : k * g.ratio = k / g.blocks * g.pageSize + k % g.blocks * g.ratio := by
      rw [← g.blocks_mul, ← Nat.mul_assoc, ← add_mul, hdiv]
    omega
  rw [hsplit]
  constructor
  · rw [mul_comm, Nat.mul_add_div g.page_pos, Nat.div_eq_of_lt hin, add_zero]
  · rw [mul_comm, Nat.mul_add_mod, Nat.mod_eq_of_lt hin]

theorem groupMembers_replacePage {i k : ℕ} (hfull : (i + 1) * g.pageSize ≤ done.length)
    (hlength : members.length = g.pageSize) :
    groupMembers g (replacePage g done members i) k =
      if k / g.blocks = i then groupMembers g members (k % g.blocks)
        else groupMembers g done k := by
  apply ext_getElem?
  intro e
  by_cases he : e < g.ratio
  · obtain ⟨hpage, hin⟩ := group_page (g := g) (k := k) he
    rw [groupMembers_getElem?, if_pos he, replacePage_getElem? hfull hlength, hpage, hin]
    split_ifs
    · rw [groupMembers_getElem?, if_pos he]
    · rw [groupMembers_getElem?, if_pos he]
  · rw [groupMembers_getElem?, if_neg he]
    split_ifs
    · rw [groupMembers_getElem?, if_neg he]
    · rw [groupMembers_getElem?, if_neg he]

theorem MemoryOk.adopt (hstore : IndexStore g store slab holds entry dest) (hok : w.Ok g)
    (hmem : MemoryOk g slab holds entry w m) {slot i page : ℕ}
    (hlive : w.live slot = some r) (hfull : (i + 1) * g.pageSize ≤ r.done.length)
    (hhit : w.book page = some (i, members)) :
    MemoryOk g slab holds entry { w with live := update w.live slot (some
      { done := replacePage g r.done members i, pages := r.pages.set i page }) } m := by
  obtain ⟨hlength, hentries⟩ := hmem.book page i members hhit
  have hsame := length_replacePage hfull hlength
  constructor
  · intro s r' h
    rcases update_eq_some h with ⟨rfl, rfl⟩ | ⟨-, h⟩
    · -- the open group comes after the page
      apply hstore.ring_congr m s r.done _ hsame _ (hmem.ring s r hlive)
      intro q hq
      rw [replacePage_getElem? hfull hlength, if_neg]
      rintro rfl
      have hdiv := Nat.div_add_mod' q g.pageSize
      have hmod := Nat.mod_lt q g.page_pos
      have hopen : (q / g.pageSize + 1) * g.pageSize ≤ r.done.length / g.ratio * g.ratio := by
        rw [← g.blocks_mul, ← Nat.mul_assoc]
        apply Nat.mul_le_mul_right
        rw [Nat.le_div_iff_mul_le g.ratio_pos, Nat.mul_assoc, g.blocks_mul]
        exact hfull
      rw [add_mul, one_mul] at hopen
      omega
    · exact hmem.ring s r' h
  · intro s r' k h hk
    rcases update_eq_some h with ⟨rfl, rfl⟩ | ⟨-, h⟩
    · have hk : (k + 1) * g.ratio ≤ r.done.length := hsame ▸ hk
      have hlt := group_page_lt (hok.fits s r hlive) hk
      show slab m (IndexReq.slabRow g ⟨_, r.pages.set i page⟩ k) = entry k
        (groupMembers g (replacePage g r.done members i) k)
      rw [groupMembers_replacePage hfull hlength]
      by_cases hi : k / g.blocks = i
      · have hpage : (r.pages.set i page)[k / g.blocks]? = some page := by
          rw [hi, getElem?_set_self (hi ▸ hlt)]
        have hmod := Nat.mod_lt k g.blocks_pos
        have hold := hentries (k % g.blocks) hmod
        rw [← hi, Nat.div_add_mod'] at hold
        rw [if_pos hi, slabRow_eq hpage, hold]
      · have hpage : (r.pages.set i page)[k / g.blocks]? = some r.pages[k / g.blocks] := by
          rw [getElem?_set_ne (Ne.symm hi)]
          exact getElem?_eq_getElem hlt
        have hold := hmem.live s r k hlive hk
        rw [slabRow_eq (getElem?_eq_getElem hlt)] at hold
        rw [if_neg hi, slabRow_eq hpage, hold]
    · exact hmem.live s r' k h hk
  · exact hmem.book

theorem MemoryOk.finish (hmem : MemoryOk g slab holds entry w m) {slot : ℕ} :
    MemoryOk g slab holds entry { w with live := update w.live slot none } m := by
  have hold : ∀ s r, update w.live slot none s = some r → w.live s = some r := by
    intro s r h
    by_cases hs : s = slot
    · subst hs
      rw [update_self] at h
      exact absurd h (by simp)
    · rwa [update_of_ne hs] at h
  constructor
  · intro s r h
    exact hmem.ring s r (hold s r h)
  · intro s r k h
    exact hmem.live s r k (hold s r h)
  · exact hmem.book

theorem MemoryOk.evict (hmem : MemoryOk g slab holds entry w m) {page : ℕ} :
    MemoryOk g slab holds entry { w with book := update w.book page none } m := by
  constructor
  · exact hmem.ring
  · exact hmem.live
  · intro page' i members h
    have h : update w.book page none page' = some (i, members) := h
    by_cases hp : page' = page
    · subst hp
      rw [update_self] at h
      exact absurd h (by simp)
    · rw [update_of_ne hp] at h
      exact hmem.book page' i members h

/-- A forward: the rings follow, the groups that it closes get their entries, and all others keep
theirs. -/
theorem MemoryOk.forward (hstore : IndexStore g store slab holds entry dest) (hok : w.Ok g)
    (hmem : MemoryOk g slab holds entry w m) (hnodup : (reqs.map Prod.fst).Nodup)
    (hreqs : ∀ q ∈ reqs, ∃ r, w.live q.1 = some r ∧ r.done.length + q.2.length ≤ r.pages.length *
      g.pageSize) :
    MemoryOk g slab holds entry
      { w with live := fun s => (w.live s).map fun r => { r with done := r.done ++ newsOf reqs s } }
      (store (w.chunks g reqs pads) m) := by
  obtain ⟨val, hstores, hval⟩ := hstore.slab_store (w.chunks g reqs pads) m
  -- the chunk of a request that the forward runs
  have hchunk : ∀ (s : ℕ) (r : IndexReq τ), w.live s = some r → (s, newsOf reqs s) ∈ reqs →
      ∃ j : ℕ, (w.chunks g reqs pads)[j]? = some (w.chunkOf g (s, newsOf reqs s)) ∧
        reqs[j]? = some (s, newsOf reqs s) := by
    intro s r h hmemReqs
    obtain ⟨j, hj⟩ := mem_iff_getElem?.mp hmemReqs
    exact ⟨j, chunks_getElem?_of_reqs hj, hj⟩
  have hslots : ∀ s r, w.live s = some r → s < g.numReqSlots := by
    intro s r h
    have hlt := hok.slot_lt s r h
    unfold IndexGeometry.dummySlot at hlt
    omega
  have hframe : ∀ s r, w.live s = some r → (s, newsOf reqs s) ∉ reqs → newsOf reqs s = [] ∧
      ∀ (j : ℕ) (c : Chunk τ), (w.chunks g reqs pads)[j]? = some c → c.tableIdx ≠ s := by
    intro s r h hnot
    refine ⟨(newsOf_eq_nil_or_mem reqs s).resolve_right hnot, fun j c hc hidx => ?_⟩
    rcases chunks_getElem? hc with ⟨q, hq, rfl⟩ | ⟨q, -, rfl⟩
    · have hidx : q.1 = s := hidx
      have hq' := mem_of_getElem? hq
      apply hnot
      rw [← hidx, @newsOf_eq _ reqs hnodup q.1 q.2 hq']
      exact hq'
    · have hidx : g.dummySlot = s := hidx
      have hlt := hok.slot_lt s r h
      omega
  constructor
  · intro s r' h
    obtain ⟨r, hlive, rfl⟩ := Option.map_eq_some_iff.mp h
    by_cases hin : (s, newsOf reqs s) ∈ reqs
    · obtain ⟨j, hj, hjr⟩ := hchunk s r hlive hin
      have huniq : ∀ (j' : ℕ) (c' : Chunk τ), (w.chunks g reqs pads)[j']? = some c' →
          c'.tableIdx = (w.chunkOf g (s, newsOf reqs s)).tableIdx → j' = j :=
        fun j' c' hc' hidx => chunks_unique hok hnodup hjr hlive hc' hidx
      have hring :=
        hstore.ring_store (w.chunks g reqs pads) m j (w.chunkOf g (s, newsOf reqs s)) r.done hj
        (by rw [chunkOf_eq g _ hlive]) (by rw [chunkOf_eq g _ hlive]; exact hslots s r hlive) huniq
        (by rw [chunkOf_eq g _ hlive]; exact hmem.ring s r hlive)
      rw [chunkOf_eq g _ hlive] at hring
      exact hring
    · obtain ⟨hnil, hout⟩ := hframe s r hlive hin
      show holds _ s (r.done ++ newsOf reqs s)
      rw [hnil, append_nil]
      exact hstore.ring_frame _ m s r.done hout (hmem.ring s r hlive)
  · intro s r' k h hk
    obtain ⟨r, hlive, rfl⟩ := Option.map_eq_some_iff.mp h
    have hk : (k + 1) * g.ratio ≤ (r.done ++ newsOf reqs s).length := hk
    show slab _ (r.slabRow g k) = entry k (groupMembers g (r.done ++ newsOf reqs s) k)
    by_cases hold : (k + 1) * g.ratio ≤ r.done.length
    · rw [hstores.of_ne _ fun i j c d hrow => dest_ne_slabRow hok hstore.isDest hreqs hlive hold
        hrow, hmem.live s r k hlive hold, groupMembers_append hold]
    · -- the forward runs the last token of the group
      rw [length_append] at hk
      have hin : (s, newsOf reqs s) ∈ reqs := by
        rcases newsOf_eq_nil_or_mem reqs s with hnil | hin
        · rw [hnil, length_nil] at hk
          omega
        · exact hin
      obtain ⟨j, hj, hjr⟩ := hchunk s r hlive hin
      have hc := chunkOf_eq g (newsOf reqs s) hlive
      obtain ⟨d, hd⟩ : ∃ d, r.done.length + d + 1 = (k + 1) * g.ratio :=
        ⟨(k + 1) * g.ratio - 1 - r.done.length, by omega⟩
      have hrow :
          Chunk.IsRow (w.chunks g reqs pads) (Chunk.cuSeqlens (w.chunks g reqs pads) j + d) j
          (w.chunkOf g (s, newsOf reqs s)) d := by
        refine ⟨hj, ?_, rfl⟩
        rw [hc]
        show d < (newsOf reqs s).length
        omega
      have hclose : (r.done.length + d + 1) % g.ratio = 0 := by
        rw [hd, Nat.mul_mod_left]
      have hposition : (r.done.length + d) / g.ratio = k := by
        have hpos := g.ratio_pos
        rw [add_mul, one_mul] at hd
        rw [Nat.div_eq_iff hpos]
        omega
      have hdest :
          dest (w.chunkOf g (s, newsOf reqs s)) ((w.chunkOf g (s, newsOf reqs s)).cachedLen + d) =
          r.slabRow g k := by
        have hlen : (w.chunkOf g (s, newsOf reqs s)).cachedLen = r.done.length := by rw [hc]
        rw [hlen, hstore.isDest.closing _ _ (by rw [hc]; exact pageTable_mod r _) hclose, hc,
          ← hposition]
        exact slabRow_of_position r _
      have huniq : ∀ i' j' c' d', Chunk.IsRow (w.chunks g reqs pads) i' j' c' d' →
          dest c' (c'.cachedLen + d') =
            dest (w.chunkOf g (s, newsOf reqs s)) ((w.chunkOf g (s, newsOf reqs s)).cachedLen + d) →
          i' = Chunk.cuSeqlens (w.chunks g reqs pads) j + d :=
        fun i' j' c' d' hrow' heq => dest_unique hok hstore.isDest hnodup hreqs hjr hlive hrow
          hclose hrow' heq
      have hnew := hstores.of_eq _ _ _ _ hrow huniq
      rw [hdest] at hnew
      rw [hnew, hval _ _ _ _ r.done k hrow (by rw [hc]; exact hslots s r hlive) (by rw [hc])
        (by rw [hc]; exact hmem.ring s r hlive) (by rw [hc]; exact hd), hc]
  · intro page i members h
    obtain ⟨hlength, hentries⟩ := hmem.book page i members h
    refine ⟨hlength, fun q hq => ?_⟩
    rw [hstores.of_ne _ fun i' j c d hrow => dest_ne_book hok hstore.isDest hreqs h hq hrow]
    exact hentries q hq

/-! ### Every schedule -/

theorem World.Step.ok {e : IndexEvent τ} (hok : w.Ok g) (hmem : MemoryOk g slab holds entry w m)
    (hstep : World.Step g w e w') : w'.Ok g := by
  cases hstep with
  | enter hfree hslot hfull hhit => exact hok.enter hslot hfull hhit
  | grow hlive hpage hfree => exact hok.grow hlive hpage hfree
  | @forward reqs pads hnodup hreqs =>
    -- a forward only adds to the requests of its batch, inside their pages
    refine @World.Ok.of_le _ _ _ _ hok rfl ?_
    intro s r' h
    obtain ⟨r, hlive, rfl⟩ := Option.map_eq_some_iff.mp h
    refine ⟨r, hlive, rfl, by simp, ?_⟩
    show (r.done ++ newsOf reqs s).length ≤ _
    rw [length_append]
    rcases newsOf_eq_nil_or_mem reqs s with hnil | hin
    · rw [hnil, length_nil]
      exact hok.fits s r hlive
    · obtain ⟨r₀, h₀, hfits⟩ := hreqs _ hin
      rw [hlive, Option.some.injEq] at h₀
      subst h₀
      exact hfits
  | publish hlive hfull hpage => exact hok.publish hlive hfull hpage
  | adopt hlive hfull hhit => exact hok.adopt hlive hfull hhit (hmem.book _ _ _ hhit).1
  | @finish slot =>
    refine @World.Ok.of_le _ _ _ _ hok rfl ?_
    intro s r' h
    have h : update w.live slot none s = some r' := h
    by_cases hs : s = slot
    · subst hs
      rw [update_self] at h
      exact absurd h (by simp)
    · rw [update_of_ne hs] at h
      exact ⟨r', h, rfl, le_rfl, hok.fits s r' h⟩
  | @evict page =>
    constructor
    · exact hok.slot_lt
    · exact hok.page_lt
    · intro page' x h
      have h : update w.book page none page' = some x := h
      by_cases hp : page' = page
      · subst hp
        rw [update_self] at h
        exact absurd h (by simp)
      · rw [update_of_ne hp] at h
        exact hok.book_lt page' x h
    · exact hok.fits
    · intro s r i page' h hpage hopen
      obtain ⟨hnone, hown⟩ := hok.own s r i page' h hpage hopen
      refine ⟨?_, hown⟩
      show update w.book page none page' = none
      by_cases hp : page' = page
      · rw [hp, update_self]
      · rw [update_of_ne hp]
        exact hnone

theorem MemoryOk.step {e : IndexEvent τ} (hstore : IndexStore g store slab holds entry dest)
    (hok : w.Ok g) (hmem : MemoryOk g slab holds entry w m) (hstep : World.Step g w e w') :
    MemoryOk g slab holds entry w' (memoryAfter g store w m e) := by
  cases hstep with
  | enter hfree hslot hfull hhit => exact hmem.enter hstore hfull hhit
  | grow hlive hpage hfree => exact hmem.grow hok hlive
  | forward hnodup hreqs => exact hmem.forward hstore hok hnodup hreqs
  | publish hlive hfull hpage => exact hmem.publish hlive hfull hpage
  | adopt hlive hfull hhit => exact hmem.adopt hstore hok hlive hfull hhit
  | finish => exact hmem.finish
  | evict => exact hmem.evict

theorem IndexRun.ok (hstore : IndexStore g store slab holds entry dest)
    (hrun : IndexRun g store w m) :
    w.Ok g ∧ MemoryOk g slab holds entry w m := by
  induction hrun with
  | start => exact ⟨World.ok_empty, MemoryOk.start⟩
  | step _ hstep ih => exact ⟨hstep.ok ih.1 ih.2, ih.2.step hstore ih.1 hstep⟩

end FreeToken
