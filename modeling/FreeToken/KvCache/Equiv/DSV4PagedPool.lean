import FreeToken.KvCache.DSV4PagedPool
import Mathlib.Data.List.GetD
import Mathlib.Tactic.Ring

/-!
# Correctness of the DeepSeek-V4 window tier

* `BoundTo`, `Unmapped`: a full page is bound linearly to a window page, or has none.
* `Inv`: every full page is one or the other, and the free window pages, the bound ones and the
  dummy page are all of them.
* `allocSwa_spec`, `freeSwa_spec`: the two operations keep it.
* `stateLoc_ne`: the compressor states of distinct window pages do not meet.
* `dsv4WindowTier_pageAtomic`: what holds in every run.
-/

namespace FreeToken

open List

variable {P : ℕ} {t : ℕ → ℤ} {b o : ℕ} {bs ws : List ℕ}

/-- The tokens of the full page at `b` are mapped to those of the window page at `w`. -/
def BoundTo (P : ℕ) (t : ℕ → ℤ) (b w : ℕ) : Prop := ∀ o < P, t (b + o) = w + o

def Unmapped (P : ℕ) (t : ℕ → ℤ) (b : ℕ) : Prop := ∀ o < P, t (b + o) = -1

/-- The base slots of the first `n` pages. -/
def pageBases (P n : ℕ) : List ℕ := (range n).map (· * P)

/-! ### Pages -/

theorem nodup_pageBases (hP : 0 < P) (n : ℕ) : (pageBases P n).Nodup :=
  nodup_range.map fun _ _ h => Nat.eq_of_mul_eq_mul_right hP h

theorem dvd_of_mem_pageBases {n : ℕ} (h : b ∈ pageBases P n) : P ∣ b := by
  obtain ⟨k, -, rfl⟩ := mem_map.mp h
  exact dvd_mul_left P k

theorem mul_mem_pageBases {n k : ℕ} (h : k < n) : k * P ∈ pageBases P n :=
  mem_map.mpr ⟨k, List.mem_range.mpr h, rfl⟩

theorem pageBases_succ (n : ℕ) : pageBases P (n + 1) = pageBases P n ++ [n * P] := by
  rw [pageBases, range_succ, map_append]
  rfl

theorem pageSlots_cons : pageSlots P (b :: bs) = range' b P ++ pageSlots P bs := rfl

theorem length_pageSlots : (pageSlots P bs).length = bs.length * P := by
  induction bs with
  | nil => rw [length_nil, Nat.zero_mul]; rfl
  | cons b bs ih =>
    rw [pageSlots_cons, length_append, length_range', ih, length_cons, Nat.succ_mul, add_comm]

/-- A token is in the given pages exactly if its page is one of them. -/
theorem mem_pageSlots (hbs : ∀ b ∈ bs, P ∣ b) (hb : P ∣ b) (ho : o < P) :
    b + o ∈ pageSlots P bs ↔ b ∈ bs := by
  unfold pageSlots
  rw [mem_flatMap]
  constructor
  · rintro ⟨b', hb', hm⟩
    obtain ⟨h₁, h₂⟩ := mem_range'_1.mp hm
    obtain ⟨k, rfl⟩ := hb
    obtain ⟨k', rfl⟩ := hbs b' hb'
    -- two multiples of the page size less than a page apart
    have hle : k' < k + 1 := by
      apply Nat.lt_of_mul_lt_mul_left (a := P)
      rw [Nat.mul_succ]
      omega
    have hge : k < k' + 1 := by
      apply Nat.lt_of_mul_lt_mul_left (a := P)
      rw [Nat.mul_succ]
      omega
    obtain rfl : k = k' := by omega
    exact hb'
  · intro h
    exact ⟨b, h, mem_range'_1.mpr ⟨by omega, by omega⟩⟩

theorem boundTo_indexPut (hbs : ∀ b ∈ bs, P ∣ b) (hn : bs.Nodup) (hl : bs.length = ws.length) :
    List.Forall₂ (BoundTo P (indexPut t (pageSlots P bs) ((pageSlots P ws).map Nat.cast))) bs
      ws := by
  induction bs generalizing t ws with
  | nil =>
    rw [length_eq_zero_iff.mp hl.symm]
    exact .nil
  | cons b bs ih =>
    cases ws with
    | nil => cases hl
    | cons w ws =>
      obtain ⟨hb, hbs⟩ := forall_mem_cons.mp hbs
      obtain ⟨hnb, hn⟩ := nodup_cons.mp hn
      rw [pageSlots_cons, pageSlots_cons, map_append, indexPut_append _ _ (by simp)]
      refine .cons (fun o ho => ?_) (ih hbs hn (Nat.succ.inj hl))
      rw [indexPut_of_notMem (mt (mem_pageSlots hbs hb ho).mp hnb)]
      have := map_indexPut (t := t) (nodup_range' : (range' b P).Nodup)
        (by simp : _ = ((range' w P).map (Nat.cast : ℕ → ℤ)).length)
      have := congrArg (·[o]?) this
      simpa [ho] using this

theorem indexPut_pageSlots (hP : 0 < P) (hbs : ∀ b ∈ bs, P ∣ b) (hn : bs.Nodup)
    (hl : bs.length = ws.length) (hb : P ∣ b) :
    indexPut t (pageSlots P bs) ((pageSlots P ws).map Nat.cast) b =
      indexPut t bs (ws.map Nat.cast) b := by
  by_cases hmem : b ∈ bs
  · have hslots : bs.map (indexPut t (pageSlots P bs) ((pageSlots P ws).map Nat.cast)) =
        ws.map Nat.cast := by
      rw [← forall₂_eq_eq_eq, forall₂_map_left_iff, forall₂_map_right_iff]
      exact (boundTo_indexPut hbs hn hl).imp fun b w h => by simpa using h 0 hP
    have hpages : bs.map (indexPut t bs (ws.map Nat.cast)) = ws.map Nat.cast :=
      map_indexPut hn (by rwa [length_map])
    exact (map_inj_left.mp (hslots.trans hpages.symm)) b hmem
  · have h0 := mt (mem_pageSlots (o := 0) hbs hb hP).mp hmem
    rw [add_zero] at h0
    rw [indexPut_of_notMem hmem, indexPut_of_notMem h0]

theorem getD_pageSlots (hP : 0 < P) (k : ℕ) : (pageSlots P bs).getD (k * P) 0 = bs.getD k 0 := by
  induction bs generalizing k with
  | nil => rfl
  | cons b bs ih =>
    rw [pageSlots_cons]
    cases k with
    | zero =>
      rw [Nat.zero_mul, getD_append _ _ _ _ (by rwa [length_range'])]
      simp [hP]
    | succ k =>
      rw [Nat.succ_mul, getD_append_right _ _ _ _ (by rw [length_range']; omega),
        length_range', Nat.add_sub_cancel, ih, getD_cons_succ]

theorem bases_pageSlots (hP : 0 < P) (bs : List ℕ) :
    ((range ((pageSlots P bs).length / P)).map fun k => (pageSlots P bs).getD (k * P) 0) =
      bs := by
  rw [length_pageSlots, Nat.mul_div_cancel _ hP]
  apply ext_getElem (by simp)
  intro k _ hk
  rw [getElem_map, getElem_range, getD_pageSlots hP, getD_eq_getElem _ _ hk]

theorem Forall₂.exists_mem {R : ℕ → ℕ → Prop} (h : List.Forall₂ R bs ws) (hb : b ∈ bs) :
    ∃ w ∈ ws, R b w := by
  induction h with
  | nil => cases hb
  | @cons b' w' _ _ hR _ ih =>
    rcases mem_cons.mp hb with rfl | hb
    · exact ⟨w', mem_cons_self, hR⟩
    · obtain ⟨w, hw, hbw⟩ := ih hb
      exact ⟨w, mem_cons_of_mem w' hw, hbw⟩

/-! ### The invariant -/

namespace DSV4PagedKVCache

variable {c c' : DSV4PagedKVCache}

/-- The full pages that are handed out: all but the dummy page. -/
def fullPages (c : DSV4PagedKVCache) : List ℕ := pageBases c.P (c.sizes.numPages - 1)

/-- The window pages that are handed out. -/
def windowPages (c : DSV4PagedKVCache) : List ℕ := pageBases c.P (c.sizes.nWinPages - 1)

def dummyFullPage (c : DSV4PagedKVCache) : ℕ := (c.sizes.numPages - 1) * c.P

def dummyWindowPage (c : DSV4PagedKVCache) : ℕ := (c.sizes.nWinPages - 1) * c.P

/-- The window pages that the given full pages are bound to. -/
def boundOf (c : DSV4PagedKVCache) (bs : List ℕ) : List ℤ :=
  (bs.map c.fullToWindow).filter (0 ≤ ·)

def bound (c : DSV4PagedKVCache) : List ℤ := c.boundOf c.fullPages

structure Inv (c : DSV4PagedKVCache) : Prop where
  linear : ∀ b ∈ c.fullPages,
    Unmapped c.P c.fullToWindow b ∨ ∃ w ∈ c.windowPages, BoundTo c.P c.fullToWindow b w
  dummy : BoundTo c.P c.fullToWindow c.dummyFullPage c.dummyWindowPage
  partition : (c.winAlloc.freeUnits.map Nat.cast ++ c.bound).Perm (c.windowPages.map Nat.cast)

theorem P_pos (c : DSV4PagedKVCache) : 0 < c.P := c.sizes.P_pos

theorem dvd_of_mem_fullPages (h : b ∈ c.fullPages) : c.P ∣ b := dvd_of_mem_pageBases h

theorem nodup_fullPages : c.fullPages.Nodup := nodup_pageBases c.P_pos _

theorem dummy_notMem_fullPages : c.dummyFullPage ∉ c.fullPages := by
  intro h
  obtain ⟨k, hk, heq⟩ := mem_map.mp h
  have := Nat.eq_of_mul_eq_mul_right c.P_pos heq
  rw [mem_range] at hk
  omega

theorem boundOf_perm {bs bs' : List ℕ} (h : bs.Perm bs') :
    (c.boundOf bs).Perm (c.boundOf bs') := (h.map _).filter _

theorem boundOf_append (bs bs' : List ℕ) :
    c.boundOf (bs ++ bs') = c.boundOf bs ++ c.boundOf bs' := by
  rw [boundOf, map_append, filter_append]
  rfl

/-- A bound page is not unmapped. -/
theorem boundOf_eq_nil (h : ∀ b ∈ bs, Unmapped c.P c.fullToWindow b) : c.boundOf bs = [] := by
  rw [boundOf, filter_eq_nil_iff]
  intro w hw
  obtain ⟨b, hb, rfl⟩ := mem_map.mp hw
  have := h b hb 0 c.P_pos
  rw [add_zero] at this
  rw [this]
  decide

/-! ### The operations -/

theorem initPagedState_spec {sizes : DSV4PoolSizes} (h : initPagedState sizes = some c) :
    c.Inv ∧ c.sizes = sizes ∧ ∀ b ∈ c.fullPages, Unmapped c.P c.fullToWindow b := by
  have hP := sizes.P_pos
  have hfull : sizes.fullToken - sizes.P = (sizes.numPages - 1) * sizes.P := by
    rw [DSV4PoolSizes.fullToken, Nat.sub_mul, Nat.one_mul]
  have hwin : sizes.nWinSlots - sizes.P = (sizes.nWinPages - 1) * sizes.P := by
    rw [DSV4PoolSizes.nWinSlots, Nat.sub_mul, Nat.one_mul]
  rw [initPagedState, hfull, hwin, FreeListAllocator.create, bindWindowPages,
    if_pos (Nat.mul_mod_left _ _), if_pos ⟨Nat.mul_mod_left _ _, Nat.mul_mod_left _ _⟩] at h
  obtain rfl := Option.some.inj h
  have hpage : List.Forall₂ (BoundTo sizes.P _) [(sizes.numPages - 1) * sizes.P]
      [(sizes.nWinPages - 1) * sizes.P] :=
    boundTo_indexPut (t := fun _ => -1) (by simp) (nodup_singleton _) rfl
  simp only [pageSlots, flatMap_cons, flatMap_nil, append_nil] at hpage
  -- only the dummy page is mapped
  have hun : ∀ b ∈ pageBases sizes.P (sizes.numPages - 1), Unmapped sizes.P
      (indexPut (fun _ => -1) (range' ((sizes.numPages - 1) * sizes.P) sizes.P)
        ((range' ((sizes.nWinPages - 1) * sizes.P) sizes.P).map Nat.cast)) b := by
    intro b hb o ho
    refine indexPut_of_notMem fun hm => ?_
    have hk := (mem_range'_1.mp hm).1
    obtain ⟨k, hlt, rfl⟩ := mem_map.mp hb
    have hle := Nat.mul_le_mul_right sizes.P (Nat.succ_le_of_lt (List.mem_range.mp hlt))
    rw [Nat.succ_mul] at hle
    omega
  refine ⟨⟨fun b hb => Or.inl (hun b hb), (forall₂_cons.mp hpage).1, ?_⟩, rfl, hun⟩
  rw [bound, boundOf_eq_nil hun, append_nil, FreeListAllocator.freshFree, Nat.mul_div_cancel _ hP]
  rfl

theorem allocSwa_spec (h : c.Inv) (hn : bs.Nodup) (hs : bs ⊆ c.fullPages)
    (hu : ∀ b ∈ bs, Unmapped c.P c.fullToWindow b) (ha : c.allocSwa (pageSlots c.P bs) = some c') :
    c'.Inv ∧ c'.sizes = c.sizes ∧ ∀ b ∈ c.fullPages, b ∉ bs →
      Unmapped c.P c.fullToWindow b → Unmapped c.P c'.fullToWindow b := by
  have hdvd : ∀ b ∈ bs, c.P ∣ b := fun b hb => dvd_of_mem_fullPages (hs hb)
  unfold allocSwa at ha
  dsimp only at ha
  rw [bases_pageSlots c.P_pos] at ha
  unfold FreeListAllocator.alloc at ha
  dsimp only at ha
  split_ifs at ha with h0 hmod hne hlen
  · obtain rfl := Option.some.inj ha
    exact ⟨h, rfl, fun _ _ _ hu => hu⟩
  · simp only [Option.some.injEq] at ha
    obtain ⟨ws, hws⟩ : ∃ ws, ws = c.winAlloc.freeUnits.drop
      (c.winAlloc.freeUnits.length - bs.length) :=
      ⟨_, rfl⟩
    obtain ⟨keep, hkeep⟩ : ∃ keep, keep =
        c.winAlloc.freeUnits.take (c.winAlloc.freeUnits.length - bs.length) := ⟨_, rfl⟩
    -- the pages are taken from the end of the free list
    have hfree : keep ++ ws = c.winAlloc.freeUnits := by rw [hws, hkeep, take_append_drop]
    have hl : bs.length = ws.length := by
      rw [hws, length_drop]
      omega
    rw [← hws, ← hkeep] at ha
    subst ha
    have hwin : ws ⊆ c.windowPages := by
      intro w hw
      have hmem : (w : ℤ) ∈ c.windowPages.map (Nat.cast : ℕ → ℤ) := h.partition.subset
        (mem_append_left _ (mem_map_of_mem (hfree ▸ mem_append_right _ hw)))
      obtain ⟨w', hw', heq⟩ := mem_map.mp hmem
      exact Nat.cast_injective heq ▸ hw'
    -- the rows of other full pages stay as they are
    have hother : ∀ b, c.P ∣ b → b ∉ bs → ∀ o < c.P, indexPut c.fullToWindow (pageSlots c.P bs)
        ((pageSlots c.P ws).map Nat.cast) (b + o) = c.fullToWindow (b + o) :=
      fun b hb hnb o ho => indexPut_of_notMem (mt (mem_pageSlots hdvd hb ho).mp hnb)
    refine ⟨⟨fun b hb => ?_, fun o ho => ?_, ?_⟩, rfl, fun b hb hnb hub o ho => ?_⟩
    · by_cases hmem : b ∈ bs
      · obtain ⟨w, hw, hbw⟩ := Forall₂.exists_mem (boundTo_indexPut hdvd hn hl) hmem
        exact Or.inr ⟨w, hwin hw, hbw⟩
      · have hsame := hother b (dvd_of_mem_fullPages hb) hmem
        rcases h.linear b hb with hub | ⟨w, hw, hbw⟩
        · exact Or.inl fun o ho => (hsame o ho).trans (hub o ho)
        · exact Or.inr ⟨w, hw, fun o ho => (hsame o ho).trans (hbw o ho)⟩
    · have hd : c.dummyFullPage ∉ bs := fun hm => dummy_notMem_fullPages (hs hm)
      exact (hother c.dummyFullPage (dvd_mul_left _ _) hd o ho).trans (h.dummy o ho)
    · -- what leaves the free list is bound now
      obtain ⟨rest, hrest⟩ := exists_rest hn hs
      have hmap : c.fullPages.map (indexPut c.fullToWindow (pageSlots c.P bs)
          ((pageSlots c.P ws).map Nat.cast)) =
            c.fullPages.map (indexPut c.fullToWindow bs (ws.map Nat.cast)) :=
        map_congr_left fun b hb =>
          indexPut_pageSlots c.P_pos hdvd hn hl (dvd_of_mem_fullPages hb)
      have hput : (c.fullPages.map (indexPut c.fullToWindow bs (ws.map Nat.cast))).Perm
          (ws.map Nat.cast ++ rest.map c.fullToWindow) :=
        perm_map_indexPut hrest nodup_fullPages (by rwa [length_map])
      have hnew := hput.filter (0 ≤ ·)
      have hpos : (ws.map (Nat.cast : ℕ → ℤ)).filter (0 ≤ ·) = ws.map Nat.cast :=
        filter_eq_self.mpr fun w hw => by
          obtain ⟨k, -, rfl⟩ := mem_map.mp hw
          simp
      rw [← hmap, filter_append, hpos] at hnew
      have hold := boundOf_perm (c := c) hrest
      rw [boundOf_append, boundOf_eq_nil hu, nil_append] at hold
      apply List.Perm.trans _ h.partition
      show (keep.map (Nat.cast : ℕ → ℤ) ++ (c.fullPages.map _).filter _).Perm
        (c.winAlloc.freeUnits.map (Nat.cast : ℕ → ℤ) ++ c.boundOf c.fullPages)
      rw [← hfree, map_append, append_assoc]
      exact (hnew.trans (hold.symm.append_left _)).append_left _
    · exact (hother b (dvd_of_mem_fullPages hb) hnb o ho).trans (hub o ho)

theorem boundOf_pages (h : c.Inv) (hs : bs ⊆ c.fullPages) :
    ((c.boundOf bs).map fun w => w.toNat / c.P * c.P).map (Nat.cast : ℕ → ℤ) = c.boundOf bs := by
  rw [map_map]
  refine (map_congr_left fun w hw => ?_).trans (map_id _)
  obtain ⟨hm, hw0⟩ := mem_filter.mp hw
  obtain ⟨b, hb, rfl⟩ := mem_map.mp hm
  rw [decide_eq_true_eq] at hw0
  rcases h.linear b (hs hb) with hub | ⟨w, hwin, hbw⟩
  · have := hub 0 c.P_pos
    rw [add_zero] at this
    omega
  · have := hbw 0 c.P_pos
    rw [add_zero, Nat.cast_zero, add_zero] at this
    rw [Function.comp_apply, this, Int.toNat_natCast,
      Nat.div_mul_cancel (dvd_of_mem_pageBases hwin), id]

/-- What `free_swa` does: the pages it is given in full are unmapped, the others stay as they
are. -/
theorem freeSwa_spec (h : c.Inv) {locs : List ℤ} (hl : ∀ i ∈ locs, i < c.dummyFullPage)
    (hf : c.freeSwa locs = some c') :
    c'.Inv ∧ c'.sizes = c.sizes ∧
      (∀ b ∈ c.fullPages, Unmapped c.P c.fullToWindow b → Unmapped c.P c'.fullToWindow b) ∧
      ∀ b ∈ c.fullPages, (∀ o < c.P, ((b + o : ℕ) : ℤ) ∈ locs) →
        Unmapped c.P c'.fullToWindow b := by
  unfold freeSwa at hf
  dsimp only at hf
  obtain ⟨fi, hfi⟩ : ∃ fi, fi = (locs.filter (0 ≤ ·)).map Int.toNat := ⟨_, rfl⟩
  rw [← hfi] at hf
  have hmem : ∀ b o, ((b + o : ℕ) : ℤ) ∈ locs → b + o ∈ fi := by
    intro b o hbo
    rw [hfi]
    refine mem_map.mpr ⟨_, mem_filter.mpr ⟨hbo, decide_eq_true (Int.natCast_nonneg _)⟩, ?_⟩
    exact Int.toNat_natCast _
  split_ifs at hf with h0 hcount
  · obtain rfl := Option.some.inj hf
    refine ⟨h, rfl, fun _ _ hu => hu, fun b _ hb => ?_⟩
    have := hmem b 0 (hb 0 c.P_pos)
    rw [length_eq_zero_iff.mp h0] at this
    cases this
  · obtain ⟨bs, hbs⟩ : ∃ bs, bs = (fi.map fun i => i / c.P * c.P).dedup.insertionSort (· ≤ ·) :=
      ⟨_, rfl⟩
    rw [← hbs] at hf
    have hperm : bs.Perm (fi.map fun i => i / c.P * c.P).dedup := hbs ▸ perm_insertionSort _ _
    have hn : bs.Nodup := hperm.nodup_iff.mpr (nodup_dedup _)
    have hbmem : ∀ b, b ∈ bs ↔ ∃ i ∈ fi, i / c.P * c.P = b := fun b => by
      rw [hperm.mem_iff, mem_dedup, mem_map]
    have hs : bs ⊆ c.fullPages := by
      intro b hb
      obtain ⟨i, hi, rfl⟩ := (hbmem b).mp hb
      apply mul_mem_pageBases
      rw [hfi] at hi
      obtain ⟨j, hj, rfl⟩ := mem_map.mp hi
      obtain ⟨hj, hj0⟩ := mem_filter.mp hj
      rw [decide_eq_true_eq] at hj0
      have hlt := hl j hj
      rw [Nat.div_lt_iff_lt_mul c.P_pos]
      unfold dummyFullPage at hlt
      omega
    have hdvd : ∀ b ∈ bs, c.P ∣ b := fun b hb => dvd_of_mem_fullPages (hs hb)
    obtain ⟨t', ht'⟩ : ∃ t', t' = indexFill c.fullToWindow (pageSlots c.P bs) (-1) := ⟨_, rfl⟩
    rw [← ht'] at hf
    -- the rows of the freed pages are cleared, the others stay
    have hin : ∀ b ∈ bs, Unmapped c.P t' b := by
      intro b hb o ho
      rw [ht']
      exact indexFill_of_mem ((mem_pageSlots hdvd (hdvd b hb) ho).mpr hb)
    have hout : ∀ b, c.P ∣ b → b ∉ bs → ∀ o < c.P, t' (b + o) = c.fullToWindow (b + o) := by
      intro b hb hnb o ho
      rw [ht']
      exact indexFill_of_notMem (mt (mem_pageSlots hdvd hb ho).mp hnb)
    have hkeep : ∀ b ∈ c.fullPages, Unmapped c.P c.fullToWindow b → Unmapped c.P t' b := by
      intro b hb hub
      by_cases hm : b ∈ bs
      · exact hin b hm
      · exact fun o ho => (hout b (dvd_of_mem_fullPages hb) hm o ho).trans (hub o ho)
    obtain rfl := Option.some.inj hf
    refine ⟨⟨fun b hb => ?_, fun o ho => ?_, ?_⟩, rfl, hkeep, fun b hb hall => hin b ?_⟩
    · rcases h.linear b hb with hub | ⟨w, hw, hbw⟩
      · exact Or.inl (hkeep b hb hub)
      · by_cases hm : b ∈ bs
        · exact Or.inl (hin b hm)
        · exact Or.inr ⟨w, hw, fun o ho =>
            (hout b (dvd_of_mem_fullPages hb) hm o ho).trans (hbw o ho)⟩
    · have hd : c.dummyFullPage ∉ bs := fun hm => dummy_notMem_fullPages (hs hm)
      exact (hout c.dummyFullPage (dvd_mul_left _ _) hd o ho).trans (h.dummy o ho)
    · -- the window pages of the freed ones are back on the free list
      obtain ⟨rest, hrest⟩ := exists_rest hn hs
      have hmap : c.fullPages.map t' = c.fullPages.map (indexFill c.fullToWindow bs (-1)) := by
        refine map_congr_left fun b hb => ?_
        have hd := dvd_of_mem_fullPages hb
        by_cases hm : b ∈ bs
        · rw [indexFill_of_mem hm]
          exact hin b hm 0 c.P_pos
        · rw [indexFill_of_notMem hm]
          exact hout b hd hm 0 c.P_pos
      have hnew := (perm_map_indexFill (t := c.fullToWindow) (v := -1) hrest
        nodup_fullPages).filter (0 ≤ ·)
      rw [← hmap, filter_append, filter_replicate] at hnew
      have hold := boundOf_perm (c := c) hrest
      rw [boundOf_append] at hold
      apply List.Perm.trans _ h.partition
      show ((c.winAlloc.freeUnits ++ (c.boundOf bs).map fun w => w.toNat / c.P * c.P).map
        (Nat.cast : ℕ → ℤ) ++ (c.fullPages.map t').filter _).Perm
          (c.winAlloc.freeUnits.map (Nat.cast : ℕ → ℤ) ++ c.boundOf c.fullPages)
      rw [map_append, boundOf_pages h hs, append_assoc]
      exact ((hnew.append_left _).trans hold.symm).append_left _
    · obtain ⟨k, -, rfl⟩ := mem_map.mp hb
      refine (hbmem _).mpr ⟨k * c.P, hmem (k * c.P) 0 (hall 0 c.P_pos), ?_⟩
      rw [Nat.mul_div_cancel _ c.P_pos]

theorem ringSizeForRatio_pos {ratio ringSize : ℕ} (h : ringSizeForRatio ratio = some ringSize) :
    0 < ringSize := by
  unfold ringSizeForRatio at h
  split_ifs at h <;> simp at h <;> omega

/-- **The state ring**: window slots of distinct pages keep their compressor states apart, whatever
the ring size. -/
theorem stateLoc_ne {P ringSize w w' o o' : ℕ} (hP : 0 < P) (hr : 0 < ringSize) (hw : P ∣ w)
    (hw' : P ∣ w') (hne : w ≠ w') (ho : o < P) (ho' : o' < P) :
    stateLoc (w + o : ℕ) ringSize P ≠ stateLoc (w' + o' : ℕ) ringSize P := by
  obtain ⟨k, rfl⟩ := hw
  obtain ⟨k', rfl⟩ := hw'
  -- a location determines the page of its window slot
  have hloc : ∀ k o : ℕ, o < P →
      ∃ a : ℕ, a < ringSize ∧ stateLoc (P * k + o : ℕ) ringSize P = (k * ringSize + a : ℕ) := by
    intro k o ho
    refine ⟨(P * k + o) % ringSize, Nat.mod_lt _ hr, ?_⟩
    have hdiv : (P * k + o) / P = k := by
      rw [Nat.mul_add_div hP, Nat.div_eq_of_lt ho, add_zero]
    rw [stateLoc, if_neg (by omega), ← Int.natCast_ediv, hdiv]
    rfl
  obtain ⟨a, ha, h₁⟩ := hloc k o ho
  obtain ⟨a', ha', h₂⟩ := hloc k' o' ho'
  rw [h₁, h₂]
  intro heq
  have heq := congrArg (· / ringSize) (Nat.cast_injective heq)
  simp only [mul_comm _ ringSize, Nat.mul_add_div hr, Nat.div_eq_of_lt ha,
    Nat.div_eq_of_lt ha', add_zero] at heq
  exact hne (by rw [heq])

end DSV4PagedKVCache

/-! ### Runs -/

open DSV4PagedKVCache

/-- The pool next to the full pages that the cache manager has free. -/
structure Dsv4Sys where
  pool : DSV4PagedKVCache
  freeSlots : List ℕ

/-- What the cache manager does with the pool.  A full page is free again only after its window page
was returned: its locations are freed in full, or it had no window page any more. -/
inductive Dsv4Step : Dsv4Sys → Dsv4Sys → Prop
  | allocatePaged {c c' : DSV4PagedKVCache} {freeSlots : List ℕ} (neededPages : ℕ)
      (ha : c.allocSwa (pageSlots c.P (freeSlots.take neededPages)) = some c') :
      Dsv4Step ⟨c, freeSlots⟩ ⟨c', freeSlots.drop neededPages⟩
  | freeSwa {c c' : DSV4PagedKVCache} {freeSlots : List ℕ} (locs : List ℤ)
      (hl : ∀ i ∈ locs, i < c.dummyFullPage) (hf : c.freeSwa locs = some c') :
      Dsv4Step ⟨c, freeSlots⟩ ⟨c', freeSlots⟩
  | freePages {c c' : DSV4PagedKVCache} {freeSlots : List ℕ} (locs : List ℤ) (pages : List ℕ)
      (hl : ∀ i ∈ locs, i < c.dummyFullPage) (hp : pages ⊆ c.fullPages)
      (hn : (freeSlots ++ pages).Nodup)
      (hc : ∀ b ∈ pages, (∀ o < c.P, ((b + o : ℕ) : ℤ) ∈ locs) ∨ Unmapped c.P c.fullToWindow b)
      (hf : c.freeSwa locs = some c') : Dsv4Step ⟨c, freeSlots⟩ ⟨c', freeSlots ++ pages⟩
  | rebuild {c c' : DSV4PagedKVCache} {freeSlots : List ℕ} (sizes : DSV4PoolSizes)
      (hr : c.rebuild sizes = some c') : Dsv4Step ⟨c, freeSlots⟩ ⟨c', c'.fullPages⟩

inductive Dsv4Run : Dsv4Sys → Prop
  | start {c : DSV4PagedKVCache} (sizes : DSV4PoolSizes) (hi : initPagedState sizes = some c) :
      Dsv4Run ⟨c, c.fullPages⟩
  | step {s s' : Dsv4Sys} (h : Dsv4Run s) (hs : Dsv4Step s s') : Dsv4Run s'

structure Dsv4Sys.Inv (s : Dsv4Sys) : Prop where
  pool : s.pool.Inv
  nodup : s.freeSlots.Nodup
  subset : s.freeSlots ⊆ s.pool.fullPages
  unmapped : ∀ b ∈ s.freeSlots, Unmapped s.pool.P s.pool.fullToWindow b

variable {s s' : Dsv4Sys}

theorem Dsv4Step.inv (hs : Dsv4Step s s') (h : s.Inv) : s'.Inv := by
  cases hs with
  | @allocatePaged c c' freeSlots neededPages ha =>
    obtain ⟨htake, hdrop, hdisj⟩ :=
      nodup_append.mp (take_append_drop neededPages freeSlots ▸ h.nodup)
    have hsub := h.subset
    obtain ⟨hinv, hsz, hkeep⟩ := allocSwa_spec h.pool htake (fun b hb => hsub (mem_of_mem_take hb))
      (fun b hb => h.unmapped b (mem_of_mem_take hb)) ha
    have hpages : c'.fullPages = c.fullPages := by rw [fullPages, fullPages, P, hsz]; rfl
    have hP : c'.P = c.P := by rw [P, hsz]; rfl
    refine ⟨hinv, hdrop, fun b hb => hpages ▸ hsub (mem_of_mem_drop hb), fun b hb => ?_⟩
    have hb' := mem_of_mem_drop hb
    rw [hP]
    exact hkeep b (hsub hb') (fun hbt => hdisj b hbt b hb rfl) (h.unmapped b hb')
  | @freeSwa c c' freeSlots locs hl hf =>
    obtain ⟨hinv, hsz, hkeep, -⟩ := freeSwa_spec h.pool hl hf
    have hpages : c'.fullPages = c.fullPages := by rw [fullPages, fullPages, P, hsz]; rfl
    have hP : c'.P = c.P := by rw [P, hsz]; rfl
    refine ⟨hinv, h.nodup, fun b hb => hpages ▸ h.subset hb, fun b hb => ?_⟩
    rw [hP]
    exact hkeep b (h.subset hb) (h.unmapped b hb)
  | @freePages c c' freeSlots locs pages hl hp hn hc hf =>
    obtain ⟨hinv, hsz, hkeep, hfull⟩ := freeSwa_spec h.pool hl hf
    have hpages : c'.fullPages = c.fullPages := by rw [fullPages, fullPages, P, hsz]; rfl
    have hP : c'.P = c.P := by rw [P, hsz]; rfl
    refine ⟨hinv, hn, fun b hb => ?_, fun b hb => ?_⟩
    · exact hpages ▸ (mem_append.mp hb).elim (fun hb => h.subset hb) (fun hb => hp hb)
    · rw [hP]
      rcases mem_append.mp hb with hb | hb
      · exact hkeep b (h.subset hb) (h.unmapped b hb)
      · exact (hc b hb).elim (hfull b (hp hb)) (hkeep b (hp hb))
  | @rebuild c c' freeSlots sizes hr =>
    obtain ⟨hinv, -, hu⟩ := initPagedState_spec hr
    exact ⟨hinv, nodup_fullPages, fun _ hb => hb, hu⟩

theorem Dsv4Run.inv (h : Dsv4Run s) : s.Inv := by
  induction h with
  | start sizes hi =>
    obtain ⟨hinv, -, hu⟩ := initPagedState_spec hi
    exact ⟨hinv, nodup_fullPages, fun _ hb => hb, hu⟩
  | step _ hs ih => exact hs.inv ih

/-- **The window tier is page-atomic**: in every run each full page is unmapped or bound linearly to
one window page, distinct bound pages have distinct window pages, the free, the bound and the dummy
window page are all of them, and the compressor states of distinct bound pages do not meet. -/
theorem dsv4WindowTier_pageAtomic (h : Dsv4Run s) :
    (∀ b ∈ s.pool.fullPages, Unmapped s.pool.P s.pool.fullToWindow b ∨
      ∃ w ∈ s.pool.windowPages, BoundTo s.pool.P s.pool.fullToWindow b w) ∧
      BoundTo s.pool.P s.pool.fullToWindow s.pool.dummyFullPage s.pool.dummyWindowPage ∧
      (s.pool.winAlloc.freeUnits.map Nat.cast ++ s.pool.bound ++
        [(s.pool.dummyWindowPage : ℤ)]).Perm
          ((pageBases s.pool.P s.pool.sizes.nWinPages).map Nat.cast) ∧
      ∀ b ∈ s.pool.fullPages ++ [s.pool.dummyFullPage],
        ∀ b' ∈ s.pool.fullPages ++ [s.pool.dummyFullPage], b ≠ b' →
          ∀ w w', BoundTo s.pool.P s.pool.fullToWindow b w →
            BoundTo s.pool.P s.pool.fullToWindow b' w' → w ≠ w' ∧
              ∀ ratio ringSize, ringSizeForRatio ratio = some ringSize →
                ∀ o < s.pool.P, ∀ o' < s.pool.P,
                  stateLoc (s.pool.fullToWindow (b + o)) ringSize s.pool.P ≠
                    stateLoc (s.pool.fullToWindow (b' + o')) ringSize s.pool.P := by
  have hinv := h.inv.pool
  have hP := s.pool.P_pos
  have hwin : (s.pool.winAlloc.freeUnits.map Nat.cast ++ s.pool.bound ++
      [(s.pool.dummyWindowPage : ℤ)]).Perm
        ((pageBases s.pool.P s.pool.sizes.nWinPages).map Nat.cast) := by
    have hsucc := Nat.sub_add_cancel s.pool.sizes.nWinPages_pos
    rw [← hsucc, pageBases_succ, map_append]
    exact hinv.partition.append_right _
  -- the window page of a bound full page, and that they are all distinct
  have hbase : ∀ b w, BoundTo s.pool.P s.pool.fullToWindow b w →
      s.pool.fullToWindow b = w := fun b w hbw => by simpa using hbw 0 hP
  have hnd : ((s.pool.fullPages ++ [s.pool.dummyFullPage]).filter
      fun b => 0 ≤ s.pool.fullToWindow b).map s.pool.fullToWindow |>.Nodup := by
    have := hwin.nodup_iff.mpr ((nodup_pageBases hP _).map Nat.cast_injective)
    rw [append_assoc] at this
    have := (nodup_append.mp this).2.1
    rw [bound, boundOf, filter_map] at this
    have hd := hbase _ _ hinv.dummy
    have hone : [s.pool.dummyFullPage].filter (fun b => 0 ≤ s.pool.fullToWindow b) =
        [s.pool.dummyFullPage] := by
      rw [filter_singleton, hd]
      simp
    rw [filter_append, map_append, hone, map_singleton, hd]
    exact this
  have hdvd : ∀ b ∈ s.pool.fullPages ++ [s.pool.dummyFullPage], ∀ w,
      BoundTo s.pool.P s.pool.fullToWindow b w → s.pool.P ∣ w := by
    intro b hb w hbw
    rcases mem_append.mp hb with hb | hb
    · rcases hinv.linear b hb with hub | ⟨w', hw', hbw'⟩
      · have h0 := hub 0 hP
        rw [add_zero, hbase b w hbw] at h0
        omega
      · have := (hbase b w hbw).symm.trans (hbase b w' hbw')
        exact Nat.cast_injective this ▸ dvd_of_mem_pageBases hw'
    · obtain rfl := mem_singleton.mp hb
      have := (hbase _ w hbw).symm.trans (hbase _ _ hinv.dummy)
      exact Nat.cast_injective this ▸ dvd_mul_left _ _
  refine ⟨hinv.linear, hinv.dummy, hwin, fun b hb b' hb' hne w w' hbw hbw' => ?_⟩
  have hww : w ≠ w' := by
    rintro rfl
    refine hne (inj_on_of_nodup_map hnd ?_ ?_ ?_)
    · exact mem_filter.mpr ⟨hb, by simp [hbase b w hbw]⟩
    · exact mem_filter.mpr ⟨hb', by simp [hbase b' w hbw']⟩
    · rw [hbase b w hbw, hbase b' w hbw']
  refine ⟨hww, fun ratio ringSize hr o ho o' ho' => ?_⟩
  rw [hbw o ho, hbw' o' ho', ← Nat.cast_add, ← Nat.cast_add]
  exact stateLoc_ne hP (ringSizeForRatio_pos hr) (hdvd b hb w hbw) (hdvd b' hb' w' hbw') hww ho ho'

/-- A run that binds two pages and gives the first one back. -/
theorem dsv4WindowTier_pageAtomic_run : ∃ s, Dsv4Run s ∧ s.pool.bound = [2] ∧
    (s.pool.winAlloc.freeUnits.map Nat.cast ++ s.pool.bound ++
      [(s.pool.dummyWindowPage : ℤ)]).Perm
        ((pageBases s.pool.P s.pool.sizes.nWinPages).map Nat.cast) := by
  have h₀ := Dsv4Run.start ⟨2, 3, 3, by decide, by decide, by decide⟩ rfl
  have h₁ := h₀.step (.allocatePaged 2 rfl)
  have h₂ := h₁.step (.freePages [1, -1, 0] [0] (by decide) (by decide) (by decide)
    (forall_mem_singleton.mpr (Or.inl (by decide))) rfl)
  exact ⟨_, h₂, by decide, (dsv4WindowTier_pageAtomic h₂).2.2.1⟩

end FreeToken
