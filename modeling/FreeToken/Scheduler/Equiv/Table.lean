import FreeToken.Scheduler.Table
import Mathlib.Data.List.Range

/-!
# Correctness of the page accounting

* `stride_row`: striding over a row names the pages the row holds.
* `writePageTable_spec`: the pages written to the table are the pages the rows gain.
* `PageState.count_free`: what is freed is held, now or when the region ends.
-/

namespace FreeToken

open Function List

variable {ps : ℕ} {t t' : PageTable} {idx lo mid hi pos : ℕ} {vals : List Slot}

/-! ### Table rows -/

theorem TableManager.allocate_spec {tables tables' : TableManager}
    (h : tables.allocate = some (tables', idx)) :
    tables.freeSlots.Perm (idx :: tables'.freeSlots) := by
  simp only [TableManager.allocate, Option.map_eq_some_iff] at h
  obtain ⟨i, hi, hti⟩ := h
  obtain ⟨rfl, rfl⟩ := Prod.mk.inj hti
  nth_rewrite 1 [← dropLast_append_getLast? i hi]
  exact perm_append_singleton i _

/-! ### Striding -/

@[simp] theorem stride_nil : stride ps [] = [] := by simp [stride]

theorem length_stride (hps : 0 < ps) (l : List Slot) :
    (stride ps l).length = divCeil l.length ps := by
  have hsome : ∀ k ∈ List.range (divCeil l.length ps), l[k * ps]? = some (l.getD (k * ps) 0) := by
    intro k hk
    have h₁ : (k + 1) * ps ≤ divCeil l.length ps * ps :=
      Nat.mul_le_mul_right ps (List.mem_range.mp hk)
    have h₂ := divCeil_mul_lt (a := l.length) hps
    rw [Nat.add_mul] at h₁
    rw [List.getElem?_eq_getElem (by omega), getD_eq_getElem?_getD,
      List.getElem?_eq_getElem (by omega), Option.getD_some]
  rw [stride, filterMap_congr hsome]
  simp

theorem stride_append (hps : 0 < ps) {l l' : List Slot} (hd : ps ∣ l.length) :
    stride ps (l ++ l') = stride ps l ++ stride ps l' := by
  obtain ⟨q, hq⟩ := hd
  rw [mul_comm] at hq
  have hl : divCeil l.length ps = q := by rw [hq, divCeil_mul hps]
  unfold stride
  rw [length_append, hl, hq, divCeil_mul_add hps, range_add, filterMap_append, filterMap_map]
  congr 1
  · refine filterMap_congr fun k hk => ?_
    have hkq : k * ps < q * ps := mul_lt_mul_of_pos_right (List.mem_range.mp hk) hps
    exact List.getElem?_append_left (by rwa [hq])
  · refine filterMap_congr fun k _ => ?_
    have hge : l.length ≤ (q + k) * ps := by
      rw [hq]
      exact Nat.mul_le_mul_right ps (Nat.le_add_right q k)
    have hsub : (q + k) * ps - l.length = k * ps := by
      rw [hq, Nat.add_mul, Nat.add_sub_cancel_left]
    rw [comp_apply, List.getElem?_append_right hge, hsub]

theorem pageToToken_cons (page : Slot) (pages : List Slot) :
    pageToToken ps (page :: pages) = (List.range ps).map (page + ·) ++ pageToToken ps pages := rfl

theorem length_pageToToken (pages : List Slot) :
    (pageToToken ps pages).length = pages.length * ps := by
  induction pages with
  | nil => simp [pageToToken]
  | cons page pages ih =>
    rw [pageToToken_cons, length_append, ih, length_map, length_range, length_cons, Nat.add_mul]
    omega

theorem take_pageToToken (k : ℕ) (pages : List Slot) :
    (pageToToken ps pages).take (k * ps) = pageToToken ps (pages.take k) := by
  induction pages generalizing k with
  | nil => simp [pageToToken]
  | cons page pages ih =>
    cases k with
    | zero => simp [pageToToken]
    | succ k =>
      have hsub : (k + 1) * ps - ps = k * ps := by rw [Nat.add_mul, one_mul]; omega
      rw [take_succ_cons, pageToToken_cons, pageToToken_cons, take_append,
        length_map, length_range, hsub, ih, take_of_length_le]
      rw [length_map, length_range, Nat.add_mul]
      omega

theorem drop_pageToToken (k : ℕ) (pages : List Slot) :
    (pageToToken ps pages).drop (k * ps) = pageToToken ps (pages.drop k) := by
  induction pages generalizing k with
  | nil => simp [pageToToken]
  | cons page pages ih =>
    cases k with
    | zero => simp
    | succ k =>
      have hsub : (k + 1) * ps - ps = k * ps := by rw [Nat.add_mul, one_mul]; omega
      rw [drop_succ_cons, pageToToken_cons, drop_append, length_map,
        length_range, hsub, ih, drop_eq_nil_of_le, nil_append]
      rw [length_map, length_range, Nat.add_mul]
      omega

theorem stride_pageToToken (hps : 0 < ps) (pages : List Slot) :
    stride ps (pageToToken ps pages) = pages := by
  induction pages with
  | nil => simp [pageToToken]
  | cons page pages ih =>
    have hone : stride ps ((List.range ps).map (page + ·)) = [page] := by
      have := divCeil_mul hps 1
      rw [one_mul] at this
      simp [stride, this, hps]
    rw [pageToToken_cons, stride_append hps (by simp), ih, hone]
    rfl

/-! ### Rows -/

@[simp] theorem PageTable.length_row : (t.row idx lo hi).length = hi - lo := by
  simp [PageTable.row]

theorem PageTable.row_congr (h : ∀ p, lo ≤ p → p < hi → t' idx p = t idx p) :
    t'.row idx lo hi = t.row idx lo hi := by
  refine map_congr_left fun p hp => ?_
  obtain ⟨h₁, h₂⟩ := List.mem_range'_1.mp hp
  exact h p h₁ (by omega)

theorem PageTable.row_append (h₁ : lo ≤ mid) (h₂ : mid ≤ hi) :
    t.row idx lo mid ++ t.row idx mid hi = t.row idx lo hi := by
  unfold PageTable.row
  rw [← map_append]
  congr 1
  have := List.range'_append_1 (s := lo) (m := mid - lo) (n := hi - mid)
  rwa [show lo + (mid - lo) = mid by omega, show mid - lo + (hi - mid) = hi - lo by omega] at this

theorem PageTable.take_row {k : ℕ} (hk : lo + k ≤ hi) :
    (t.row idx lo hi).take k = t.row idx lo (lo + k) := by
  rw [← PageTable.row_append (Nat.le_add_right lo k) hk, take_append_of_le_length (by simp),
    take_of_length_le (by simp)]

theorem PageTable.drop_row {k : ℕ} (hk : lo + k ≤ hi) :
    (t.row idx lo hi).drop k = t.row idx (lo + k) hi := by
  rw [← PageTable.row_append (Nat.le_add_right lo k) hk, drop_append_of_le_length (by simp),
    drop_eq_nil_of_le (by simp), nil_append]

theorem PageTable.write_of_ne {i : ℕ} (h : i ≠ idx) (p : ℕ) :
    t.write idx pos vals i p = t i p := by
  simp [PageTable.write, h]

theorem PageTable.write_of_lt {i p : ℕ} (h : p < pos) : t.write idx pos vals i p = t i p := by
  simp [PageTable.write, not_le.mpr h]

theorem PageTable.write_of_ge {i p : ℕ} (h : pos + vals.length ≤ p) :
    t.write idx pos vals i p = t i p := by
  unfold PageTable.write
  split
  · rw [getD_eq_getElem?_getD, List.getElem?_eq_none (by omega), Option.getD_none]
  · rfl

theorem PageTable.row_write_self :
    (t.write idx pos vals).row idx pos (pos + vals.length) = vals := by
  refine ext_getElem (by simp) fun i h₁ h₂ => ?_
  simp only [PageTable.row, getElem_map, getElem_range', one_mul, PageTable.write,
    Nat.le_add_right, and_self, if_true, Nat.add_sub_cancel_left]
  rw [getD_eq_getElem?_getD, List.getElem?_eq_getElem h₂, Option.getD_some]

/-- The pages of a row between two positions, the second one rounded up. -/
def rowPages (ps : ℕ) (t : PageTable) (idx lo hi : ℕ) : List Slot :=
  (List.range' (lo / ps) (divCeil hi ps - lo / ps)).map fun k => t idx (k * ps)

/-- **Striding over a row** from the start of a page names the pages it holds. -/
theorem stride_row (hps : 0 < ps) (hd : ps ∣ lo) :
    stride ps (t.row idx lo hi) = rowPages ps t idx lo hi := by
  obtain ⟨q, rfl⟩ := hd
  rw [mul_comm ps q]
  have hcount : divCeil (hi - q * ps) ps = divCeil hi ps - q := by
    rcases le_total (q * ps) hi with hle | hle
    · obtain ⟨n, rfl⟩ := Nat.exists_eq_add_of_le hle
      rw [Nat.add_sub_cancel_left, divCeil_mul_add hps, Nat.add_sub_cancel_left]
    · have h₁ := divCeil_mono hle ps
      rw [divCeil_mul hps] at h₁
      rw [Nat.sub_eq_zero_of_le hle, Nat.sub_eq_zero_of_le h₁, divCeil_zero hps]
  unfold stride rowPages
  rw [PageTable.length_row, hcount, Nat.mul_div_cancel _ hps, List.range'_eq_map_range,
    map_map, ← filterMap_eq_map]
  refine filterMap_congr fun k hk => ?_
  have hk' := List.mem_range.mp hk
  have hlt : k * ps < hi - q * ps := by
    have h₁ : (k + 1) * ps ≤ divCeil (hi - q * ps) ps * ps := Nat.mul_le_mul_right ps (by omega)
    have h₂ := divCeil_mul_lt (a := hi - q * ps) hps
    rw [Nat.add_mul] at h₁
    omega
  simp only [PageTable.row, comp_apply]
  rw [List.getElem?_map, List.getElem?_range' (by omega), Option.map_some, one_mul, Nat.add_mul]

theorem rowPages_congr (hps : 0 < ps) (hd : ps ∣ lo)
    (h : ∀ p, lo ≤ p → p < hi → t' idx p = t idx p) :
    rowPages ps t' idx lo hi = rowPages ps t idx lo hi := by
  rw [← stride_row hps hd, ← stride_row hps hd, PageTable.row_congr h]

theorem rowPages_eq_nil (h : divCeil hi ps ≤ lo / ps) : rowPages ps t idx lo hi = [] := by
  simp [rowPages, Nat.sub_eq_zero_of_le h]

theorem rowPages_self (hps : 0 < ps) (hd : ps ∣ lo) : rowPages ps t idx lo lo = [] := by
  rw [← stride_row hps hd]
  simp [PageTable.row]

theorem rowPages_append (hps : 0 < ps) (hlo : ps ∣ lo) (hmid : ps ∣ mid) (h₁ : lo ≤ mid)
    (h₂ : mid ≤ hi) :
    rowPages ps t idx lo mid ++ rowPages ps t idx mid hi = rowPages ps t idx lo hi := by
  rw [← stride_row hps hlo, ← stride_row hps hmid, ← stride_row hps hlo, ← stride_append hps,
    PageTable.row_append h₁ h₂]
  rw [PageTable.length_row]
  exact Nat.dvd_sub hmid hlo

theorem rowPages_divCeil (hps : 0 < ps) :
    rowPages ps t idx lo (divCeil hi ps * ps) = rowPages ps t idx lo hi := by
  rw [rowPages, rowPages, divCeil_mul hps]

/-! ### Writing allocated pages -/

section Allocate

variable {η : Type}

theorem allocationInfo_eq_nil {reqs : List (Req η)}
    (h : neededPages (allocationInfo ps reqs) = 0) : allocationInfo ps reqs = [] := by
  rw [eq_nil_iff_forall_not_mem]
  intro i hi
  have h0 : i.2.2 - i.2.1 = 0 := List.sum_eq_zero_iff.mp h _ (mem_map_of_mem hi)
  obtain ⟨r, -, hr⟩ := List.mem_filterMap.mp hi
  simp only [Option.ite_none_right_eq_some] at hr
  obtain ⟨hlt, hr⟩ := hr
  rw [← Option.some.inj hr] at h0
  simp only at h0
  omega

/-- **The pages written to the table are the pages the rows gain**, in order; the other rows, and
the pages the rows had, are as before. -/
theorem writePageTable_spec (hps : 0 < ps) :
    ∀ (reqs : List (Req η)) (t : PageTable) (pages : List Slot),
      (reqs.map Req.tableIdx).Nodup → pages.length = neededPages (allocationInfo ps reqs) →
      (∀ i, i ∉ reqs.map Req.tableIdx → ∀ p,
        writePageTable ps t (pageToToken ps pages) (allocationInfo ps reqs) i p = t i p) ∧
      (∀ r ∈ reqs, ∀ p < divCeil r.cachedLen ps * ps,
        writePageTable ps t (pageToToken ps pages) (allocationInfo ps reqs) r.tableIdx p =
          t r.tableIdx p) ∧
      reqs.flatMap (fun r =>
        rowPages ps (writePageTable ps t (pageToToken ps pages) (allocationInfo ps reqs))
          r.tableIdx (divCeil r.cachedLen ps * ps) r.deviceLen) = pages := by
  intro reqs
  induction reqs with
  | nil =>
    intro t pages _ hlen
    have : pages = [] := List.length_eq_zero_iff.mp hlen
    exact ⟨fun _ _ _ => rfl, by simp, by simp [this]⟩
  | cons r reqs ih =>
    intro t pages hnd hlen
    rw [map_cons, nodup_cons] at hnd
    obtain ⟨f, hf⟩ : ∃ f, f = divCeil r.cachedLen ps := ⟨_, rfl⟩
    obtain ⟨l, hl⟩ : ∃ l, l = divCeil r.deviceLen ps := ⟨_, rfl⟩
    by_cases hlt : f < l
    · -- the row takes the first pages
      have hinfo :
        allocationInfo ps (r :: reqs) = (r.tableIdx, f, l) :: allocationInfo ps reqs := by
        simp [allocationInfo, ← hf, ← hl, hlt]
      rw [hinfo] at hlen ⊢
      have hneed : pages.length = l - f + neededPages (allocationInfo ps reqs) := hlen
      have hsub : l * ps - f * ps = (l - f) * ps := (Nat.sub_mul l f ps).symm
      simp only [writePageTable, hsub, take_pageToToken, drop_pageToToken]
      obtain ⟨vals, hvals⟩ : ∃ vals, vals = pageToToken ps (pages.take (l - f)) := ⟨_, rfl⟩
      have hvl : f * ps + vals.length = l * ps := by
        rw [hvals, length_pageToToken, length_take, min_eq_left (by omega), ← Nat.add_mul,
          Nat.add_sub_cancel' hlt.le]
      rw [← hvals]
      obtain ⟨ih₁, ih₂, ih₃⟩ := ih (t.write r.tableIdx (f * ps) vals) (pages.drop (l - f)) hnd.2
        (by rw [length_drop]; omega)
      refine ⟨fun i hi p => ?_, fun q hq p hp => ?_, ?_⟩
      · rw [map_cons, mem_cons, not_or] at hi
        rw [ih₁ i hi.2, PageTable.write_of_ne hi.1]
      · rcases List.mem_cons.mp hq with rfl | hq
        · rw [ih₁ _ hnd.1, PageTable.write_of_lt (by rwa [hf])]
        · have hne : q.tableIdx ≠ r.tableIdx := fun heq =>
            hnd.1 (heq ▸ mem_map_of_mem hq)
          rw [ih₂ q hq p hp, PageTable.write_of_ne hne]
      · rw [flatMap_cons, ih₃]
        have hrow : rowPages ps (writePageTable ps (t.write r.tableIdx (f * ps) vals)
            (pageToToken ps (pages.drop (l - f))) (allocationInfo ps reqs)) r.tableIdx
            (divCeil r.cachedLen ps * ps) r.deviceLen = pages.take (l - f) := by
          rw [← hf, rowPages_congr hps (dvd_mul_left ps f) fun p _ _ => ih₁ _ hnd.1 p,
            ← rowPages_divCeil hps, ← hl, ← stride_row hps (dvd_mul_left ps f), ← hvl,
            PageTable.row_write_self, hvals, stride_pageToToken hps]
        rw [hrow, take_append_drop]
    · -- the row has room left in its last page
      have hinfo : allocationInfo ps (r :: reqs) = allocationInfo ps reqs := by
        simp [allocationInfo, ← hf, ← hl, hlt]
      rw [hinfo] at hlen ⊢
      obtain ⟨ih₁, ih₂, ih₃⟩ := ih t pages hnd.2 hlen
      refine ⟨fun i hi p => ?_, fun q hq p hp => ?_, ?_⟩
      · rw [map_cons, mem_cons, not_or] at hi
        exact ih₁ i hi.2 p
      · rcases List.mem_cons.mp hq with rfl | hq
        · exact ih₁ _ hnd.1 p
        · exact ih₂ q hq p hp
      · rw [flatMap_cons, ih₃, ← hf, rowPages_eq_nil, nil_append]
        rw [Nat.mul_div_cancel _ hps, ← hl]
        exact not_lt.mp hlt

end Allocate

/-! ### Free pages -/

namespace PageState

variable {s : PageState}

/-- The pages that are free, now or when the region ends. -/
def freePages (s : PageState) : List Slot := s.freeSlots ++ s.lazyFreeList.getD []

/-- **What is freed is free**, now or when the region ends. -/
theorem freePages_free (s : PageState) (indices : List Slot) :
    (s.free indices).freePages.Perm (s.freePages ++ stride s.pageSize indices) := by
  unfold free freePages
  cases s.lazyFreeList with
  | none => simp
  | some l => simp

@[simp] theorem free_pageSize (s : PageState) (indices : List Slot) :
    (s.free indices).pageSize = s.pageSize := by
  unfold free
  split <;> rfl

@[simp] theorem free_numPages (s : PageState) (indices : List Slot) :
    (s.free indices).numPages = s.numPages := by
  unfold free
  split <;> rfl

@[simp] theorem free_pageTable (s : PageState) (indices : List Slot) :
    (s.free indices).pageTable = s.pageTable := by
  unfold free
  split <;> rfl

end PageState

/-! ### The pages of the running requests -/

/-- A request that holds resources.  It is `pending` from the allocation of its next extent to the
end of the forward pass that fills it. -/
structure LiveReq (η : Type) where
  req : Req η
  pending : Bool := false

namespace LiveReq

variable {η : Type} [BaseCacheHandle η]

/-- How far the row of the request is allocated. -/
def covered (r : LiveReq η) : ℕ := if r.pending then r.req.deviceLen else r.req.cachedLen

/-- The pages of the span that is not committed yet. -/
def pages (ps : ℕ) (t : PageTable) (r : LiveReq η) : List Slot :=
  rowPages ps t r.req.tableIdx (BaseCacheHandle.cachedLen r.req.cacheHandle) r.covered

structure Lens (ps : ℕ) (r : LiveReq η) : Prop where
  dvd : ps ∣ BaseCacheHandle.cachedLen r.req.cacheHandle
  le : BaseCacheHandle.cachedLen r.req.cacheHandle ≤ r.req.cachedLen
  lt : r.req.cachedLen < r.req.deviceLen

theorem pages_congr (hps : 0 < ps) {r : LiveReq η} (h : r.Lens ps)
    (ht : ∀ p, t' r.req.tableIdx p = t r.req.tableIdx p) : r.pages ps t' = r.pages ps t :=
  rowPages_congr hps h.dvd fun p _ _ => ht p

variable {reqs : List (LiveReq η)}

/-- Rows that are not written to keep their pages. -/
theorem flatMap_pages_congr (hps : 0 < ps) (h : ∀ r ∈ reqs, r.Lens ps)
    (ht : ∀ r ∈ reqs, ∀ p, t' r.req.tableIdx p = t r.req.tableIdx p) :
    reqs.flatMap (pages ps t') = reqs.flatMap (pages ps t) :=
  flatMap_congr fun r hr => pages_congr hps (h r hr) (ht r hr)

/-- **Allocating a batch** moves the allocated pages to the spans of its requests. -/
theorem count_flatMap_pages_allocate (hps : 0 < ps) {batch : List (LiveReq η)} {pgs : List Slot}
    (h : ∀ r ∈ batch, r.Lens ps) (hp : ∀ r ∈ batch, r.pending = false)
    (hnd : (batch.map fun r => r.req.tableIdx).Nodup)
    (hlen : pgs.length = neededPages (allocationInfo ps (batch.map LiveReq.req)))
    (ht : t' = writePageTable ps t (pageToToken ps pgs) (allocationInfo ps (batch.map LiveReq.req)))
    (x : Slot) :
    ((batch.map fun r => { r with pending := true }).flatMap (pages ps t')).count x =
      (batch.flatMap (pages ps t)).count x + pgs.count x := by
  obtain ⟨-, hbelow, hpgs⟩ := writePageTable_spec hps (batch.map LiveReq.req) t pgs
    (by rwa [map_map]) hlen
  rw [← ht] at hbelow hpgs
  rw [← hpgs, flatMap_map, flatMap_map, count_flatMap, count_flatMap, count_flatMap, ← sum_map_add]
  refine congrArg List.sum (map_congr_left fun r hr => ?_)
  obtain ⟨hd, hle, hlt⟩ := h r hr
  have hc := le_divCeil_mul (a := r.req.cachedLen) hps
  have hup : divCeil r.req.cachedLen ps * ps ≤ divCeil r.req.deviceLen ps * ps :=
    Nat.mul_le_mul_right ps (divCeil_mono hlt.le ps)
  have hdm := dvd_mul_left ps (divCeil r.req.cachedLen ps)
  have hold : pages ps t r = rowPages ps t' r.req.tableIdx
      (BaseCacheHandle.cachedLen r.req.cacheHandle) (divCeil r.req.cachedLen ps * ps) := by
    rw [pages, covered, hp r hr, if_neg (by decide), ← rowPages_divCeil hps]
    exact (rowPages_congr hps hd fun p _ hpl =>
      hbelow r.req (mem_map_of_mem hr) p hpl).symm
  rw [comp_apply, comp_apply, comp_apply, hold, ← count_append, pages, covered, if_pos rfl]
  simp only
  rw [← rowPages_divCeil hps, ← rowPages_append hps hd hdm (hle.trans hc) hup, rowPages_divCeil hps,
    rowPages_divCeil hps]

/-- Every page is free, or in the tree, or in the span of one request; `tree` are the pages in the
tree. -/
def Ledger (s : PageState) (tree : List Slot) (reqs : List (LiveReq η)) : Prop :=
  (s.freePages ++ tree ++ reqs.flatMap (pages s.pageSize s.pageTable)).Perm
    ((List.range s.numPages).map (· * s.pageSize))

/-- The ledger in numbers. -/
theorem ledger_iff {s : PageState} {tree : List Slot} :
    Ledger s tree reqs ↔ ∀ x, s.freePages.count x + tree.count x +
      (reqs.flatMap (pages s.pageSize s.pageTable)).count x =
        ((List.range s.numPages).map (· * s.pageSize)).count x := by
  unfold Ledger
  rw [perm_iff_count]
  simp only [count_append]

theorem Ledger.of_perm {s : PageState} {tree : List Slot} {reqs' : List (LiveReq η)}
    (h : Ledger s tree reqs) (hp : reqs.Perm reqs') : Ledger s tree reqs' :=
  ((List.Perm.append_left _ (hp.flatMap_right _)).symm).trans h

end LiveReq

end FreeToken
