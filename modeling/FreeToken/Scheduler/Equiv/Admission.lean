import FreeToken.Scheduler.Decode
import FreeToken.Scheduler.Equiv.Prefill
import FreeToken.Scheduler.Equiv.Cache

/-!
# Admission keeps the KV pool solvent

The passes of the scheduler over any cache manager whose pages can be counted.

* `CountedCache`: the calls of a run and the laws of the count.
* `ServeSys.Inv.addLoop`, `ServeSys.Inv.prefillBatch`: what a pass reserves covers what it and the
  later passes allocate.
* `allocate_fits`: over a run, a batch never needs more pages than are free or evictable.
-/

namespace FreeToken

open List PrefillCache

/-! ### Counting pages -/

/-- The fields of a request that the reservations depend on are those of `r`. -/
structure Req.SameSpan {η : Type} (r r' : Req η) : Prop where
  cachedLen : r'.cachedLen = r.cachedLen
  deviceLen : r'.deviceLen = r.deviceLen
  maxDeviceLen : r'.maxDeviceLen = r.maxDeviceLen
  chunked : r'.chunked = r.chunked

/-- The handle of a request names a prefix of its tokens that it has been through. -/
structure Req.Held {η : Type} [BaseCacheHandle η] (r : Req η) : Prop where
  node : BaseCacheHandle.node r.cacheHandle =
    r.inputIds.take (BaseCacheHandle.cachedLen r.cacheHandle)
  le : BaseCacheHandle.cachedLen r.cacheHandle ≤ r.cachedLen

def lockedPaths {η : Type} [BaseCacheHandle η] (handles : List η) : List Path :=
  handles.map BaseCacheHandle.node

class PageCount (μ : Type) where
  /-- No `lazy_free_region` is open. -/
  Closed : μ → Prop
  /-- The pages that are free, freed lazily or cached. -/
  kept : μ → ℕ

open PageCount

/-- The manager `m'` has as many pages as `m`, and no region has been opened. -/
structure SameCount {μ η : Type} [BaseCacheHandle η] [PrefillCache μ η] [PageCount μ] (m m' : μ) :
    Prop where
  pageSize : pageSize m' = pageSize m
  closed : Closed m → Closed m'
  kept : kept m' = kept m

/-- A cache manager whose pages can be counted.  The relations are the calls of the scheduler
besides those of `PrefillCache`, for any clock readings and heaps; `Ok m handles` is the invariant
of a manager whose locked handles are `handles`. -/
class CountedCache (μ : Type) (η : outParam Type) [BaseCacheHandle η] [PrefillCache μ η] extends
    PageCount μ where
  /-- A manager with nothing in it. -/
  New : μ → Prop
  /-- `allocate_paged` of a batch. -/
  AllocatePaged : μ → List (Req η) → μ → Prop
  /-- `cache_req` of an unfinished request, which gets a new handle. -/
  Commit : μ → Req η → μ → Req η → Prop
  /-- `cache_req` of a finished request. -/
  Release : μ → Req η → μ → Prop
  /-- What leaves the pages where they are: nothing, the two ends of a `lazy_free_region`, and what
  concerns the other currencies alone. -/
  Other : μ → μ → Prop
  Ok : μ → List η → Prop
  Lockable : μ → η → Prop
  new_spec {m : μ} : New m → Ok m [] ∧ Closed m
  pageSize_pos {m : μ} {handles : List η} : Ok m handles → 0 < pageSize m
  ok_perm {m : μ} {handles handles' : List η} : Ok m handles → handles.Perm handles' → Ok m handles'
  handle_spec {m : μ} {handles : List η} {hd : η} : Ok m handles → hd ∈ handles →
    (BaseCacheHandle.node hd).length = BaseCacheHandle.cachedLen hd
  availableSize_eq {m : μ} {handles : List η} : Ok m handles → Closed m →
    availableSize m = ((kept m : ℤ) - prefixCount (pageSize m) (lockedPaths handles)) * pageSize m
  matchReq_spec {m m' : μ} {handles : List η} {ids : List Token} {tic : ℤ} {hd : η} {v : Option ℕ} :
    Ok m handles → matchReq m ids tic = (m', hd, v) → Ok m' handles ∧ Lockable m' hd ∧
      SameCount m m' ∧ BaseCacheHandle.node hd = ids.take (BaseCacheHandle.cachedLen hd)
  lock_spec {m m' : μ} {handles : List η} {hd hd' : η} : Ok m handles → Lockable m hd →
    lock m hd = (m', hd') → Ok m' (hd' :: handles) ∧ SameCount m m' ∧
      BaseCacheHandle.cachedLen hd' = BaseCacheHandle.cachedLen hd ∧
      BaseCacheHandle.node hd' = BaseCacheHandle.node hd
  unlock_spec {m : μ} {handles : List η} {hd : η} : Ok m (hd :: handles) →
    Ok (unlock m hd) handles ∧ SameCount m (unlock m hd)
  ensureMambaSlots_spec {m : μ} {handles : List η} (n : ℕ) : Ok m handles →
    Ok (ensureMambaSlots m n) handles ∧ SameCount m (ensureMambaSlots m n)
  allocSlots_spec {m : μ} {handles : List η} (n : ℕ) : Ok m handles →
    Ok (allocSlots m n).1 handles ∧ SameCount m (allocSlots m n).1
  freeStateSlots_spec {m : μ} {handles : List η} (slots : List ℕ) : Ok m handles →
    Ok (freeStateSlots m slots) handles ∧ SameCount m (freeStateSlots m slots)
  writeMatched_spec {m : μ} {handles : List η} (idx : ℕ) (hd : η) : Ok m handles →
    Ok (writeMatched m idx hd) handles ∧ SameCount m (writeMatched m idx hd)
  other_spec {m m' : μ} {handles : List η} : Ok m handles → Other m m' →
    Ok m' handles ∧ pageSize m' = pageSize m ∧ kept m' = kept m
  allocatePaged_spec {m m' : μ} {handles : List η} {reqs : List (Req η)} : Ok m handles →
    AllocatePaged m reqs m' → Ok m' handles ∧ pageSize m' = pageSize m ∧
      kept m = kept m' + neededPages (allocationInfo (pageSize m) reqs)
  commit_spec {m m' : μ} {handles : List η} {r r' : Req η} : Ok m (r.cacheHandle :: handles) →
    r.Held → r.cachedLen < r.deviceLen → Commit m r m' r' → Ok m' (r'.cacheHandle :: handles) ∧
      pageSize m' = pageSize m ∧ r.SameSpan r' ∧ r'.inputIds = r.inputIds ∧ r'.Held ∧
      kept m + (BaseCacheHandle.cachedLen r'.cacheHandle / pageSize m -
        BaseCacheHandle.cachedLen r.cacheHandle / pageSize m) ≤ kept m'
  release_spec {m m' : μ} {handles : List η} {r : Req η} : Ok m (r.cacheHandle :: handles) →
    r.Held → r.cachedLen < r.deviceLen → Release m r m' →
      Ok m' handles ∧ pageSize m' = pageSize m ∧ kept m ≤ kept m'

open CountedCache

/-- The pages that a request still needs when it has been cached up to `cachedLen`. -/
def PendingReq.pagesFrom {η : Type} (p : PendingReq η) (ps : ℕ) (cachedLen : ℕ) : ℕ :=
  divCeil (p.inputLen + p.outputLen) ps - divCeil cachedLen ps

/-- The pages that are reserved for a pending request. -/
def PendingReq.owed {η : Type} (ps : ℕ) (p : PendingReq η) : ℕ :=
  match p.chunkedReq with
  | some c => p.pagesFrom ps c.cachedLen
  | none => 0

/-- The pages that a running request still needs: its last token is not cached. -/
def Req.owed {η : Type} (ps : ℕ) (r : Req η) : ℕ :=
  divCeil (r.maxDeviceLen - 1) ps - divCeil r.cachedLen ps

/-! ### Runs -/

/-- The scheduler: its managers, and the requests that have left them but still hold their row,
because their last results have not been processed or they are about to be freed. -/
structure ServeSys (μ η α : Type) where
  prefill : PrefillManager μ η α
  decode : DecodeManager η
  others : List (Req η) := []

namespace ServeSys

variable {μ η α : Type} (s : ServeSys μ η α)

def cache : μ := s.prefill.cacheManager

def withCache (m : μ) : ServeSys μ η α := { s with prefill := { s.prefill with cacheManager := m } }

def live : List (Req η) :=
  s.prefill.pendingList.filterMap PendingReq.chunkedReq ++ (s.decode.runningReqs ++ s.others)

/-- A prefill batch is run on the manager `pm` that has scheduled it. -/
def runPrefill (pm : PrefillManager μ η α) (b : PrefillBatch η) : ServeSys μ η α where
  prefill := pm.completeChunks (b.reqs.countP Req.chunked)
  decode := s.decode.filterReqs (b.reqs.map Req.completeOne)
  others := (b.reqs.map Req.completeOne).filter (fun r => !r.chunked && !r.canDecode) ++ s.others

/-- All running requests take a step, on the cache manager `m`. -/
def runDecode (m : μ) : ServeSys μ η α :=
  let reqs := s.decode.runningReqs.map Req.completeOne
  { s.withCache m with
    decode := { s.decode with runningReqs := reqs }.filterReqs []
    others := reqs.filter (fun r => !r.canDecode) ++ s.others }

/-- A request that is not needed any more leaves the pending list, or the running requests. -/
def abortPending (uid : ℕ) : ServeSys μ η α :=
  { s with
    prefill := (s.prefill.abortReq uid).1
    others := (s.prefill.abortReq uid).2.toList ++ s.others }

/-- The requests that hold a handle change in fields that no reservation depends on. -/
def touch (f : Req η → Req η) : ServeSys μ η α where
  prefill := { s.prefill with
    pendingList := s.prefill.pendingList.map fun req =>
      { req with chunkedReq := req.chunkedReq.map f } }
  decode := { s.decode with runningReqs := s.decode.runningReqs.map f }
  others := s.others.map f

end ServeSys

/-- The runs of the scheduler: prefill and decode passes, and between them, in any order, arrivals,
aborts, commits and releases. -/
inductive ServeRun {μ η α : Type} [BaseCacheHandle η] [PrefillCache μ η] [CountedCache μ η] :
    ServeSys μ η α → Prop
  | start (m : μ) (tables : TableManager) (encoder : Option (EncoderCache α))
      (keepImagesWhole : Bool)
      (hm : New m) : ServeRun ⟨⟨m, tables, encoder, keepImagesWhole, []⟩, ⟨pageSize m, []⟩, []⟩
  | addOneReq (s : ServeSys μ η α) (h : ServeRun s) (req : PendingReq η)
      (hreq : req.chunkedReq = none) : ServeRun { s with prefill := s.prefill.addOneReq req }
  | prefillBatch (s : ServeSys μ η α) (h : ServeRun s) (hclosed : Closed s.cache)
      (prefillBudget : ℕ) (tic : ℕ → ℤ) (pm : PrefillManager μ η α) (b : PrefillBatch η) (m m' : μ)
      (hb : s.prefill.scheduleNextBatch s.decode.inflightTokens prefillBudget tic =
        some (pm, some b)) (hm : Other pm.cacheManager m) (ha : AllocatePaged m b.reqs m') :
      ServeRun (s.runPrefill { pm with cacheManager := m' } b)
  | noPrefill (s : ServeSys μ η α) (h : ServeRun s) (hclosed : Closed s.cache) (prefillBudget : ℕ)
      (tic : ℕ → ℤ) (pm : PrefillManager μ η α)
      (hb : s.prefill.scheduleNextBatch s.decode.inflightTokens prefillBudget tic =
        some (pm, none)) :
      ServeRun { s with prefill := pm }
  | decodeBatch (s : ServeSys μ η α) (h : ServeRun s) (hclosed : Closed s.cache)
      (reqs : List (Req η))
      (m : μ) (hb : s.decode.scheduleNextBatch = some reqs) (ha : AllocatePaged s.cache reqs m) :
      ServeRun (s.runDecode m)
  | commit (s : ServeSys μ η α) (h : ServeRun s) (r r' : Req η) (rest : List (Req η)) (m : μ)
      (hr : s.decode.runningReqs.Perm (r :: rest)) (hc : Commit s.cache r m r') :
      ServeRun { s.withCache m with decode := { s.decode with runningReqs := r' :: rest } }
  | removeReq (s : ServeSys μ η α) (h : ServeRun s) (r : Req η) (rest : List (Req η))
      (hr : s.decode.runningReqs.Perm (r :: rest)) :
      ServeRun { s with decode := { s.decode with runningReqs := rest }, others := r :: s.others }
  | abortPending (s : ServeSys μ η α) (h : ServeRun s) (uid : ℕ) : ServeRun (s.abortPending uid)
  | release (s : ServeSys μ η α) (h : ServeRun s) (r : Req η) (rest : List (Req η)) (m : μ)
      (hr : s.others.Perm (r :: rest)) (hc : Release s.cache r m) :
      ServeRun { s.withCache m with others := rest }
  | touch (s : ServeSys μ η α) (h : ServeRun s) (f : Req η → Req η)
      (hf : ∀ r, r.SameSpan (f r) ∧ (f r).cacheHandle = r.cacheHandle ∧
        r.inputIds <+: (f r).inputIds) : ServeRun (s.touch f)
  | other (s : ServeSys μ η α) (h : ServeRun s) (m : μ) (tables : TableManager)
      (encoder : Option (EncoderCache α)) (hm : Other s.cache m) :
      ServeRun { s with prefill := { s.prefill with
        cacheManager := m, tableManager := tables, encoderCache := encoder } }
  | rebuild (s : ServeSys μ η α) (h : ServeRun s) (m : μ) (hm : New m)
      (hps : pageSize m = pageSize s.cache) (hidle : s.prefill.pendingList = [] ∧ s.live = []) :
      ServeRun (s.withCache m)

section laws

variable {μ η α : Type} [BaseCacheHandle η] [PrefillCache μ η] [CountedCache μ η]
  {a a' : PrefillAdder μ α} {p : PendingReq η} {k : Carried η} {r : Req η} {handles : List η}
  {tic : ℤ}

omit [CountedCache μ η] in
theorem SameCount.refl [PageCount μ] (m : μ) : SameCount m m := ⟨rfl, id, rfl⟩

omit [CountedCache μ η] in
theorem SameCount.trans [PageCount μ] {m₁ m₂ m₃ : μ} (h : SameCount m₁ m₂) (h' : SameCount m₂ m₃) :
    SameCount m₁ m₃ :=
  ⟨h'.pageSize.trans h.pageSize, fun hc => h'.closed (h.closed hc), h'.kept.trans h.kept⟩

namespace PrefillAdder

/-! ### One admission -/

omit [CountedCache μ η] in
/-- What an added request costs, and where it ends. -/
theorem addOneReq_count (h : a.addOneReq p k = some (a', some r)) :
    a'.cacheManager = a.cacheManager ∧ r.maxDeviceLen = r.deviceLen + p.outputLen ∧
      a'.reservedSize = a.reservedSize +
        kvReservationSize (pageSize a.cacheManager) (p.inputLen + p.outputLen) k.cachedLen := by
  unfold addOneReq at h
  split at h
  · cases h
  · obtain ⟨r', hr', heq⟩ := Option.map_eq_some_iff.mp h
    obtain ⟨rfl, hr⟩ := Prod.mk.inj heq
    obtain rfl := Option.some.inj hr
    obtain ⟨-, rfl⟩ := Req.create_spec hr'
    exact ⟨rfl, rfl, rfl⟩

theorem seatState_spec {m : μ} (h : Ok m handles) :
    Ok (seatState m).1 handles ∧ SameCount m (seatState m).1 := by
  unfold seatState
  split_ifs
  · exact ensureMambaSlots_spec 3 h
  · exact ⟨h, .refl m⟩
  · exact ⟨h, .refl m⟩

theorem takeSlots_spec {m : μ} (h : Ok m handles) :
    Ok (takeSlots m).1 handles ∧ SameCount m (takeSlots m).1 := by
  unfold takeSlots
  split_ifs
  · obtain ⟨h₁, hs₁⟩ := allocSlots_spec 1 h
    obtain ⟨h₂, hs₂⟩ := allocSlots_spec 2 h₁
    exact ⟨h₂, hs₁.trans hs₂⟩
  · exact ⟨h, .refl m⟩

/-- A handle is locked only if what is left behind the lock covers the reservation. -/
theorem lockIfFits_cases {m m' : μ} {hd : η} {estimatedSize extendLen : ℕ} {res : Option η}
    (h : Ok m handles) (hl : Lockable m hd) (hclosed : Closed m)
    (heq : a.lockIfFits m hd estimatedSize extendLen = (m', res)) :
    SameCount m m' ∧ ((res = none ∧ Ok m' handles) ∨
      ∃ hd', res = some hd' ∧ Ok m' (hd' :: handles) ∧
        BaseCacheHandle.cachedLen hd' = BaseCacheHandle.cachedLen hd ∧
        BaseCacheHandle.node hd' = BaseCacheHandle.node hd ∧
        (estimatedSize + a.reservedSize : ℤ) ≤
          (kept m - prefixCount (pageSize m) (lockedPaths (hd' :: handles))) * pageSize m) := by
  unfold lockIfFits at heq
  cases hlock : lock m hd with
  | mk m₁ hd₁ =>
    obtain ⟨h₁, hs₁, hlen, hnode⟩ := lock_spec h hl hlock
    obtain ⟨h₂, hs₂⟩ := seatState_spec h₁
    rw [hlock] at heq
    dsimp only at heq
    split_ifs at heq with hfit hseat
    · obtain ⟨rfl, rfl⟩ := Prod.mk.inj heq
      obtain ⟨hu, hsu⟩ := unlock_spec h₁
      exact ⟨hs₁.trans hsu, Or.inl ⟨rfl, hu⟩⟩
    · obtain ⟨rfl, rfl⟩ := Prod.mk.inj heq
      refine ⟨hs₁.trans hs₂, Or.inr ⟨hd₁, rfl, h₂, hlen, hnode, ?_⟩⟩
      rw [not_lt, availableSize_eq h₁ (hs₁.closed hclosed), hs₁.kept, hs₁.pageSize] at hfit
      exact hfit
    · obtain ⟨rfl, rfl⟩ := Prod.mk.inj heq
      obtain ⟨hu, hsu⟩ := unlock_spec h₂
      exact ⟨(hs₁.trans hs₂).trans hsu, Or.inl ⟨rfl, hu⟩⟩

/-- The handle of a new request is locked, and the request fits behind all that is reserved. -/
structure Admitted (a : PrefillAdder μ α) (p : PendingReq η) (handles : List η) (hd : η)
    (cachedLen : ℕ) : Prop where
  start : cachedLen = BaseCacheHandle.cachedLen hd
  node : BaseCacheHandle.node hd = p.inputIds.take cachedLen
  fits : ((p.pagesFrom (pageSize a.cacheManager) cachedLen * pageSize a.cacheManager : ℕ) +
    a.reservedSize : ℤ) ≤ (kept a.cacheManager -
      prefixCount (pageSize a.cacheManager) (lockedPaths (hd :: handles))) * pageSize a.cacheManager

/-- What an attempt to admit a request does to the count. -/
theorem tryAllocateOne_cases {res : Option (Carried η)} (h : Ok a.cacheManager handles)
    (hclosed : Closed a.cacheManager) (heq : a.tryAllocateOne p tic = some (a', res)) :
    SameCount a.cacheManager a'.cacheManager ∧ a'.reservedSize = a.reservedSize ∧
      ((res = none ∧ Ok a'.cacheManager handles) ∨
        ∃ k, res = some k ∧ Ok a'.cacheManager (k.cacheHandle :: handles) ∧
          a.Admitted p handles k.cacheHandle k.cachedLen) := by
  unfold tryAllocateOne at heq
  split at heq
  · obtain ⟨rfl, rfl⟩ := Prod.mk.inj (Option.some.inj heq)
    exact ⟨.refl _, rfl, Or.inl ⟨rfl, h⟩⟩
  · next tables idx ht =>
    split_ifs at heq with hempty
    cases hmatch : matchReq a.cacheManager p.inputIds tic with
    | mk m x =>
      obtain ⟨hd, v⟩ := x
      obtain ⟨h₁, hl₁, hs₁, hnode₁⟩ := matchReq_spec h hmatch
      rw [hmatch] at heq
      dsimp only at heq
      split_ifs at heq with hfit
      · obtain ⟨rfl, rfl⟩ := Prod.mk.inj (Option.some.inj heq)
        exact ⟨hs₁, rfl, Or.inl ⟨rfl, h₁⟩⟩
      -- the request fits before its prefix is locked; locking it may use up what was evictable
      · cases hres : a.lockIfFits m hd (kvReservationSize (pageSize m) (p.inputLen + p.outputLen)
            (BaseCacheHandle.cachedLen hd)) (p.inputLen - BaseCacheHandle.cachedLen hd) with
        | mk m₂ res₂ =>
          rw [hres] at heq
          obtain ⟨hs₂, ⟨rfl, h₂⟩ | ⟨hd', rfl, h₂, hlen, hnode, hfits⟩⟩ :=
            lockIfFits_cases h₁ hl₁ (hs₁.closed hclosed) hres
          · obtain ⟨rfl, rfl⟩ := Prod.mk.inj (Option.some.inj heq)
            exact ⟨hs₁.trans hs₂, rfl, Or.inl ⟨rfl, h₂⟩⟩
          · obtain ⟨rfl, rfl⟩ := Prod.mk.inj (Option.some.inj heq)
            -- the matched prefix goes to the row
            have hwrite :
                Ok (if 0 < BaseCacheHandle.cachedLen hd' then writeMatched m₂ idx hd' else m₂)
                (hd' :: handles) ∧
                SameCount m₂ (if 0 < BaseCacheHandle.cachedLen hd' then writeMatched m₂ idx hd'
                  else m₂) := by
              split_ifs
              · exact writeMatched_spec idx hd' h₂
              · exact ⟨h₂, .refl _⟩
            obtain ⟨htake, hstake⟩ := takeSlots_spec hwrite.1
            refine ⟨(hs₁.trans hs₂).trans (hwrite.2.trans hstake), rfl,
              Or.inr ⟨_, rfl, htake, rfl, ?_, ?_⟩⟩
            · show BaseCacheHandle.node hd' = p.inputIds.take (BaseCacheHandle.cachedLen hd')
              rw [hnode, hnode₁, hlen]
            · rw [hs₁.kept, hs₁.pageSize, ← hlen] at hfits
              exact hfits

theorem undo_spec (h : Ok a.cacheManager (k.cacheHandle :: handles)) :
    Ok (a.undo k).cacheManager handles ∧ SameCount a.cacheManager (a.undo k).cacheManager := by
  obtain ⟨hu, hsu⟩ := unlock_spec h
  unfold undo
  cases k.linearSlotIdx with
  | none => exact ⟨hu, hsu⟩
  | some live => exact ⟨(freeStateSlots_spec _ hu).1, hsu.trans (freeStateSlots_spec _ hu).2⟩

structure Reserves (a a' : PrefillAdder μ α) (p : PendingReq η) (r : Req η) : Prop where
  maxDeviceLen : r.maxDeviceLen = r.deviceLen + p.outputLen
  reservedSize : a'.reservedSize = a.reservedSize +
    p.pagesFrom (pageSize a.cacheManager) r.cachedLen * pageSize a.cacheManager

/-- A request is not added, or it is a continuation, which has its handle already, or it is
admitted. -/
theorem tryAddOne_cases {res : Option (Req η)} (h : Ok a.cacheManager handles)
    (hclosed : Closed a.cacheManager) (heq : a.tryAddOne p tic = some (a', res)) :
    SameCount a.cacheManager a'.cacheManager ∧ ((res = none ∧ Ok a'.cacheManager handles) ∨
      ∃ r, res = some r ∧ Reserves a a' p r ∧
        ((∃ c, p.chunkedReq = some c ∧ Ok a'.cacheManager handles ∧ r.cacheHandle = c.cacheHandle ∧
            r.cachedLen = c.cachedLen) ∨
          p.chunkedReq = none ∧ Ok a'.cacheManager (r.cacheHandle :: handles) ∧
            a.Admitted p handles r.cacheHandle r.cachedLen)) := by
  unfold tryAddOne at heq
  split_ifs at heq
  · obtain ⟨rfl, rfl⟩ := Prod.mk.inj (Option.some.inj heq)
    exact ⟨.refl _, Or.inl ⟨rfl, h⟩⟩
  · cases hc : p.chunkedReq with
    -- the next chunk of a request that holds its handle
    | some c =>
      rw [hc] at heq
      cases res with
      | none =>
        obtain rfl := addOneReq_none heq
        exact ⟨.refl _, Or.inl ⟨rfl, h⟩⟩
      | some r =>
        obtain ⟨hm, hmax, hres⟩ := addOneReq_count heq
        obtain ⟨hchunk, hhandle, -⟩ := addOneReq_spec heq
        have hstart : r.cachedLen = c.cachedLen := hchunk.cachedLen
        rw [hm]
        refine ⟨.refl _, Or.inr ⟨r, rfl, ⟨hmax, ?_⟩, Or.inl ⟨c, rfl, h, hhandle, hstart⟩⟩⟩
        rw [hstart]
        exact hres
    | none =>
      rw [hc] at heq
      cases halloc : a.tryAllocateOne p tic with
      | none =>
        rw [halloc] at heq
        cases heq
      | some x =>
        obtain ⟨a₁, k₁⟩ := x
        rw [halloc] at heq
        obtain ⟨hs₁, hres₁, ⟨rfl, h₁⟩ | ⟨k, rfl, h₁, hadm⟩⟩ := tryAllocateOne_cases h hclosed halloc
        · obtain ⟨rfl, rfl⟩ := Prod.mk.inj (Option.some.inj heq)
          exact ⟨hs₁, Or.inl ⟨rfl, h₁⟩⟩
        · obtain ⟨⟨a₂, r₂⟩, hadd, hx⟩ := Option.map_eq_some_iff.mp heq
          cases r₂ with
          | none =>
            obtain ⟨rfl, rfl⟩ := Prod.mk.inj hx
            obtain rfl := addOneReq_none hadd
            -- no room for a chunk: what was locked for it is unlocked
            obtain ⟨hu, hsu⟩ := undo_spec h₁
            exact ⟨hs₁.trans hsu, Or.inl ⟨rfl, hu⟩⟩
          | some r =>
            obtain ⟨rfl, rfl⟩ := Prod.mk.inj hx
            obtain ⟨hm, hmax, hres⟩ := addOneReq_count hadd
            obtain ⟨hchunk, hhandle, -⟩ := addOneReq_spec hadd
            have hstart : r.cachedLen = k.cachedLen := hchunk.cachedLen
            rw [hs₁.pageSize, hres₁, ← hstart] at hres
            rw [← hhandle, ← hstart] at hadm
            rw [← hhandle, ← hm] at h₁
            rw [← hm] at hs₁
            exact ⟨hs₁, Or.inr ⟨r, rfl, ⟨hmax, hres⟩, Or.inr ⟨rfl, h₁, hadm⟩⟩⟩

end PrefillAdder

/-! ### A pass -/

/-- The handles of the requests whose prompts are in part cached. -/
def chunkHandles (pendingList : List (PendingReq η)) : List η :=
  (pendingList.filterMap PendingReq.chunkedReq).map Req.cacheHandle

/-- The pages that are reserved for the pending requests. -/
def owedPages (ps : ℕ) (pendingList : List (PendingReq η)) : ℕ :=
  (pendingList.map (PendingReq.owed ps)).sum

/-- The pages that a pass reserves for the requests it adds. -/
def addedPages (ps : ℕ) (added : List (PendingReq η × Req η)) : ℕ :=
  (added.map fun x => x.1.pagesFrom ps x.2.cachedLen).sum

/-- The chunk of a pending request holds a prefix of its prompt. -/
def PendingReq.Carries (p : PendingReq η) : Prop :=
  ∀ c, p.chunkedReq = some c →
    BaseCacheHandle.node c.cacheHandle = p.inputIds.take (BaseCacheHandle.cachedLen c.cacheHandle) ∧
      BaseCacheHandle.cachedLen c.cacheHandle ≤ c.cachedLen

/-- Those that are partly cached stand first. -/
def ChunksFirst (pendingList : List (PendingReq η)) : Prop :=
  pendingList.Pairwise fun p q => q.chunkedReq.isSome → p.chunkedReq.isSome

variable {pendingList : List (PendingReq η)}

omit [BaseCacheHandle η] [PrefillCache μ η] [CountedCache μ η] in
/-- Behind a new request, nothing has a handle. -/
theorem ChunksFirst.none_of_none
    (h : ChunksFirst (p :: pendingList)) (hp : p.chunkedReq = none) :
    chunkHandles pendingList = [] ∧ ∀ ps, owedPages ps pendingList = 0 := by
  have hnone : ∀ q ∈ pendingList, q.chunkedReq = none := by
    intro q hq
    have hpq := (List.pairwise_cons.mp h).1 q hq
    rw [hp] at hpq
    exact Option.not_isSome_iff_eq_none.mp fun hs => absurd (hpq hs) Bool.false_ne_true
  constructor
  · unfold chunkHandles
    rw [map_eq_nil_iff, filterMap_eq_nil_iff]
    exact hnone
  · intro ps
    refine List.sum_eq_zero_iff.mpr fun n hn => ?_
    obtain ⟨q, hq, rfl⟩ := List.mem_map.mp hn
    rw [PendingReq.owed, hnone q hq]

/-- The pages that are there cover what is reserved, `need` pages by the adder so far and the rest
for the pending requests that it has not come to. -/
structure PrefillAdder.Solvent (a : PrefillAdder μ α) (pendingList : List (PendingReq η))
    (handles : List η) (need : ℕ) : Prop where
  ok : Ok a.cacheManager (chunkHandles pendingList ++ handles)
  closed : Closed a.cacheManager
  reserved : need * pageSize a.cacheManager ≤ a.reservedSize
  fits : need + owedPages (pageSize a.cacheManager) pendingList +
    prefixCount (pageSize a.cacheManager)
    (lockedPaths (chunkHandles pendingList ++ handles)) ≤ kept a.cacheManager

omit [PrefillCache μ η] [CountedCache μ η] in
theorem prefixCount_lockedPaths {ps : ℕ} {handles handles' : List η} (h : handles.Perm handles') :
    prefixCount ps (lockedPaths handles) = prefixCount ps (lockedPaths handles') :=
  prefixCount_perm (h.map _)

/-- A continuation takes what was reserved for it. -/
theorem PrefillAdder.Solvent.continuation {need : ℕ} {c : Req η}
    (ha : a.Solvent (p :: pendingList) handles need) (hs : SameCount a.cacheManager a'.cacheManager)
    (hres : PrefillAdder.Reserves a a' p r) (hc : p.chunkedReq = some c)
    (hok : Ok a'.cacheManager (chunkHandles (p :: pendingList) ++ handles))
    (hhandle : r.cacheHandle = c.cacheHandle) (hstart : r.cachedLen = c.cachedLen) :
    a'.Solvent pendingList (r.cacheHandle :: handles)
      (need + p.pagesFrom (pageSize a.cacheManager) r.cachedLen) := by
  have hperm : (chunkHandles (p :: pendingList) ++ handles).Perm
      (chunkHandles pendingList ++ r.cacheHandle :: handles) := by
    have hcons : chunkHandles (p :: pendingList) = r.cacheHandle :: chunkHandles pendingList := by
      unfold chunkHandles
      rw [filterMap_cons_some hc, map_cons, hhandle]
    rw [hcons]
    exact List.perm_middle.symm
  have howed : owedPages (pageSize a.cacheManager) (p :: pendingList) =
      p.pagesFrom (pageSize a.cacheManager) r.cachedLen +
        owedPages (pageSize a.cacheManager) pendingList := by
    unfold owedPages
    rw [map_cons, sum_cons, PendingReq.owed, hc, hstart]
  refine ⟨ok_perm hok hperm, hs.closed ha.closed, ?_, ?_⟩
  · rw [hs.pageSize, hres.reservedSize, add_mul]
    exact Nat.add_le_add_right ha.reserved _
  · have hfits := ha.fits
    rw [howed, prefixCount_lockedPaths hperm] at hfits
    rw [hs.pageSize, hs.kept]
    omega

theorem PrefillAdder.Solvent.admitted {pendingList : List (PendingReq η)} {need : ℕ}
    (ha : a.Solvent (p :: pendingList) handles need) (hfirst : ChunksFirst (p :: pendingList))
    (hs : SameCount a.cacheManager a'.cacheManager) (hres : PrefillAdder.Reserves a a' p r)
    (hc : p.chunkedReq = none)
    (hok : Ok a'.cacheManager (r.cacheHandle :: (chunkHandles (p :: pendingList) ++ handles)))
    (hadm : a.Admitted p (chunkHandles (p :: pendingList) ++ handles) r.cacheHandle r.cachedLen) :
    a'.Solvent pendingList (r.cacheHandle :: handles)
      (need + p.pagesFrom (pageSize a.cacheManager) r.cachedLen) := by
  obtain ⟨hnil, hzero⟩ := hfirst.none_of_none hc
  have hnil' : chunkHandles (p :: pendingList) = [] := by
    unfold chunkHandles at hnil ⊢
    rw [filterMap_cons_none hc, hnil]
  have hfits := hadm.fits
  rw [hnil'] at hok hfits
  have hpos : (0 : ℤ) < pageSize a.cacheManager := by exact_mod_cast pageSize_pos ha.ok
  refine ⟨by rw [hnil]; exact hok, hs.closed ha.closed, ?_, ?_⟩
  · rw [hs.pageSize, hres.reservedSize, add_mul]
    exact Nat.add_le_add_right ha.reserved _
  · have hneed : ((need * pageSize a.cacheManager : ℕ) : ℤ) ≤ a.reservedSize := by
      exact_mod_cast ha.reserved
    have hle : ((need + p.pagesFrom (pageSize a.cacheManager) r.cachedLen : ℕ) : ℤ) ≤
        kept a.cacheManager - prefixCount (pageSize a.cacheManager)
          (lockedPaths (r.cacheHandle :: ([] ++ handles))) := by
      refine le_of_mul_le_mul_right ?_ hpos
      refine le_trans ?_ hfits
      push_cast at hneed ⊢
      linarith
    rw [hs.pageSize, hs.kept, hzero, hnil]
    rw [nil_append] at hle ⊢
    omega

/-- **What a pass adds is covered**: what it reserves for the requests it adds and for those it has
not come to, and the locked pages, are at most the pages there are. -/
theorem addLoop_solvent {tic : ℕ → ℤ} {s : PrefillPass μ η α}
    {need : ℕ} (h : addLoop a tic pendingList = some s) (hfirst : ChunksFirst pendingList)
    (hcarries : ∀ p ∈ pendingList, p.Carries) (ha : a.Solvent pendingList handles need) :
    SameCount a.cacheManager s.adder.cacheManager ∧
      Ok s.adder.cacheManager (s.reqs.map Req.cacheHandle ++
        (chunkHandles (pendingList.drop s.reqs.length) ++ handles)) ∧
      need + addedPages (pageSize a.cacheManager) (pendingList.zip s.reqs) +
          owedPages (pageSize a.cacheManager) (pendingList.drop s.reqs.length) +
          prefixCount (pageSize a.cacheManager) (lockedPaths (s.reqs.map Req.cacheHandle ++
            (chunkHandles (pendingList.drop s.reqs.length) ++ handles))) ≤
        kept a.cacheManager ∧
      ∀ x ∈ pendingList.zip s.reqs, x.2.maxDeviceLen = x.2.deviceLen + x.1.outputLen ∧
        BaseCacheHandle.node x.2.cacheHandle =
          x.1.inputIds.take (BaseCacheHandle.cachedLen x.2.cacheHandle) ∧
        BaseCacheHandle.cachedLen x.2.cacheHandle ≤ x.2.cachedLen := by
  induction pendingList generalizing a tic s need handles with
  | nil =>
    obtain rfl := Option.some.inj h
    exact ⟨.refl _, ha.ok, ha.fits, fun x hx => absurd hx not_mem_nil⟩
  | cons p pendingList ih =>
    unfold addLoop at h
    split at h
    · cases h
    · next a' hadd =>
      obtain rfl := Option.some.inj h
      obtain ⟨hs, ⟨-, hok⟩ | ⟨r, hr, -⟩⟩ := PrefillAdder.tryAddOne_cases ha.ok ha.closed hadd
      · exact ⟨hs, hok, ha.fits, fun x hx => absurd hx not_mem_nil⟩
      · cases hr
    · next a' r hadd =>
      obtain ⟨s', hs', rfl⟩ := Option.map_eq_some_iff.mp h
      obtain ⟨hs, ⟨hr, -⟩ | ⟨r', hr, hres, hkind⟩⟩ :=
        PrefillAdder.tryAddOne_cases ha.ok ha.closed hadd
      · cases hr
      obtain rfl := Option.some.inj hr
      -- the reserve moves from the request to the pages it got, whether its chunk goes on or it is
      -- new
      have hnext : a'.Solvent pendingList (r.cacheHandle :: handles)
          (need + p.pagesFrom (pageSize a.cacheManager) r.cachedLen) := by
        obtain ⟨c, hc, hok, hhandle, hstart⟩ | ⟨hc, hok, hadm⟩ := hkind
        · exact ha.continuation hs hres hc hok hhandle hstart
        · exact ha.admitted hfirst hs hres hc hok hadm
      have hheld : BaseCacheHandle.node r.cacheHandle =
          p.inputIds.take (BaseCacheHandle.cachedLen r.cacheHandle) ∧
            BaseCacheHandle.cachedLen r.cacheHandle ≤ r.cachedLen := by
        obtain ⟨c, hc, -, hhandle, hstart⟩ | ⟨-, -, hadm⟩ := hkind
        · rw [hhandle, hstart]
          exact hcarries p mem_cons_self c hc
        · rw [← hadm.start]
          exact ⟨hadm.node, le_rfl⟩
      have hclaim : (if p.chunkedReq.isNone then a'.claim p r else a').Solvent pendingList
          (r.cacheHandle :: handles) (need + p.pagesFrom (pageSize a.cacheManager) r.cachedLen) ∧
          (if p.chunkedReq.isNone then a'.claim p r else a').cacheManager = a'.cacheManager := by
        split_ifs
        · exact ⟨⟨hnext.ok, hnext.closed, hnext.reserved, hnext.fits⟩, rfl⟩
        · exact ⟨hnext, rfl⟩
      obtain ⟨hs₁, hok₁, hfits₁, hall₁⟩ := ih hs' (List.pairwise_cons.mp hfirst).2
        (fun q hq => hcarries q (mem_cons_of_mem p hq)) hclaim.1
      rw [hclaim.2] at hs₁ hfits₁
      -- the new handle, from behind the chunks to the front
      have hperm : (s'.reqs.map Req.cacheHandle ++
          (chunkHandles (pendingList.drop s'.reqs.length) ++ r.cacheHandle :: handles)).Perm
            (r.cacheHandle :: (s'.reqs.map Req.cacheHandle ++
              (chunkHandles (pendingList.drop s'.reqs.length) ++ handles))) := by
        rw [← append_assoc, ← append_assoc]
        exact perm_middle
      refine ⟨hs.trans hs₁, ok_perm hok₁ hperm, ?_,
        List.forall_mem_cons.mpr ⟨⟨hres.maxDeviceLen, hheld⟩, hall₁⟩⟩
      rw [prefixCount_lockedPaths hperm, hs.pageSize, hs.kept] at hfits₁
      refine le_trans (le_of_eq ?_) hfits₁
      show need + addedPages _ ((p, r) :: pendingList.zip s'.reqs) + _ + _ = _
      rw [addedPages, map_cons, sum_cons, ← addedPages, ← add_assoc]
      rfl

end laws

/-! ### What a batch takes -/

section growth

variable {η : Type} {ps : ℕ}

/-- The pages that a batch needs for one of its requests. -/
def Req.growth (ps : ℕ) (r : Req η) : ℕ := divCeil r.deviceLen ps - divCeil r.cachedLen ps

/-- The pages that the running requests still need. -/
def runningPages (ps : ℕ) (reqs : List (Req η)) : ℕ := (reqs.map (Req.owed ps)).sum

theorem neededPages_eq (reqs : List (Req η)) :
    neededPages (allocationInfo ps reqs) = (reqs.map (Req.growth ps)).sum := by
  induction reqs with
  | nil => rfl
  | cons r reqs ih =>
    rw [map_cons, sum_cons, ← ih]
    unfold neededPages allocationInfo Req.growth
    rw [filterMap_cons]
    dsimp only
    split_ifs with hlt
    · dsimp only
      rw [map_cons, sum_cons]
    · dsimp only
      omega

theorem neededPages_perm {reqs reqs' : List (Req η)} (h : reqs.Perm reqs') :
    neededPages (allocationInfo ps reqs) = neededPages (allocationInfo ps reqs') := by
  rw [neededPages_eq, neededPages_eq]
  exact (h.map _).sum_eq

theorem runningPages_perm {reqs reqs' : List (Req η)} (h : reqs.Perm reqs') :
    runningPages ps reqs = runningPages ps reqs' := (h.map _).sum_eq

/-- The tokens in flight cover the pages that the running requests still need. -/
theorem runningPages_mul_le (hps : 0 < ps) {reqs : List (Req η)}
    (h : ∀ r ∈ reqs, r.deviceLen = r.cachedLen + 1) :
    runningPages ps reqs * ps ≤ (DecodeManager.mk ps reqs).inflightTokens := by
  unfold DecodeManager.inflightTokens runningPages
  dsimp only
  induction reqs with
  | nil => exact (Nat.zero_mul ps).le.trans (Nat.zero_le _)
  | cons r reqs ih =>
    have hrest := ih fun q hq => h q (mem_cons_of_mem r hq)
    have hdev := h r mem_cons_self
    have hone : r.owed ps * ps ≤ r.remainLen + (ps - 1) := by
      have hlo := le_divCeil_mul (a := r.cachedLen) hps
      have hhi := divCeil_mul_lt (a := r.maxDeviceLen - 1) hps
      unfold Req.owed Req.remainLen
      rw [Nat.sub_mul]
      omega
    rw [map_cons, sum_cons, foldr_cons, length_cons, add_mul, mul_add, mul_one]
    omega

theorem Req.growth_add_owed (ps : ℕ) {r : Req η} (hdev : r.deviceLen = r.cachedLen + 1)
    (hlt : r.deviceLen < r.maxDeviceLen) : r.growth ps + r.completeOne.owed ps = r.owed ps := by
  have h₁ : divCeil r.cachedLen ps ≤ divCeil r.deviceLen ps := divCeil_mono (by omega) ps
  have h₂ : divCeil r.deviceLen ps ≤ divCeil (r.maxDeviceLen - 1) ps := divCeil_mono (by omega) ps
  show divCeil r.deviceLen ps - divCeil r.cachedLen ps +
    (divCeil (r.maxDeviceLen - 1) ps - divCeil r.deviceLen ps) =
      divCeil (r.maxDeviceLen - 1) ps - divCeil r.cachedLen ps
  omega

/-- A step of the running requests takes what it needs from what they still need. -/
theorem growth_add_runningPages (ps : ℕ) {reqs : List (Req η)}
    (h : ∀ r ∈ reqs, r.deviceLen = r.cachedLen + 1 ∧ r.deviceLen < r.maxDeviceLen) :
    (reqs.map (Req.growth ps)).sum +
      runningPages ps ((reqs.map Req.completeOne).filter Req.canDecode) ≤ runningPages ps reqs := by
  unfold runningPages
  induction reqs with
  | nil => exact le_rfl
  | cons r reqs ih =>
    have hrest := ih fun q hq => h q (mem_cons_of_mem r hq)
    obtain ⟨hdev, hlt⟩ := h r mem_cons_self
    have hone := Req.growth_add_owed ps hdev hlt
    rw [map_cons, map_cons, map_cons, sum_cons, sum_cons, filter_cons]
    split_ifs
    · rw [map_cons, sum_cons]
      omega
    · omega

/-- The request `r`, added for `p`, in the batch. -/
structure PendingReq.Adds [BaseCacheHandle η] (p : PendingReq η) (r : Req η) : Prop where
  chunk : p.IsChunk (p.nextStart r) r
  maxDeviceLen : r.maxDeviceLen = r.deviceLen + p.outputLen
  node : BaseCacheHandle.node r.cacheHandle =
    p.inputIds.take (BaseCacheHandle.cachedLen r.cacheHandle)
  le : BaseCacheHandle.cachedLen r.cacheHandle ≤ r.cachedLen

/-- What is left of the pending request behind its chunk has been run. -/
def completed (x : PendingReq η × Req η) : Option (PendingReq η) :=
  if x.2.chunked then some { x.1 with chunkedReq := some x.2.completeOne } else none

/-- A chunk takes what it needs from what was reserved for its request; the rest is for the next
chunk or for the tokens to come. -/
theorem growth_add_le_addedPages [BaseCacheHandle η] (ps : ℕ) {added : List (PendingReq η × Req η)}
    (h : ∀ x ∈ added, x.1.Adds x.2) :
    ((added.map Prod.snd).map (Req.growth ps)).sum + owedPages ps (added.filterMap completed) +
      runningPages ps (((added.map Prod.snd).map Req.completeOne).filter Req.canDecode) ≤
        addedPages ps added := by
  unfold addedPages owedPages runningPages
  induction added with
  | nil => exact le_rfl
  | cons x added ih =>
    have hrest := ih fun y hy => h y (mem_cons_of_mem x hy)
    obtain ⟨hchunk, hmax, -, -⟩ := h x mem_cons_self
    have hcached : x.2.cachedLen = x.1.nextStart x.2 := hchunk.cachedLen
    have hlt := hchunk.lt
    have hle := hchunk.le
    have h₁ : divCeil x.2.cachedLen ps ≤ divCeil x.2.deviceLen ps := divCeil_mono (by omega) ps
    have h₂ : divCeil x.2.deviceLen ps ≤ divCeil (x.1.inputLen + x.1.outputLen) ps :=
      divCeil_mono (by omega) ps
    have hgrowth : x.2.growth ps = divCeil x.2.deviceLen ps - divCeil x.2.cachedLen ps := rfl
    have hfrom : x.1.pagesFrom ps x.2.cachedLen =
        divCeil (x.1.inputLen + x.1.outputLen) ps - divCeil x.2.cachedLen ps := rfl
    rw [map_cons, map_cons, map_cons, map_cons, sum_cons, sum_cons,
      filterMap_cons, filter_cons, completed]
    cases hc : x.2.chunked with
    -- an unfinished prompt: the rest of it is owed to the pending request
    | true =>
      have hdec : x.2.completeOne.canDecode = false := by
        show (!x.2.chunked && _) = false
        rw [hc]
        rfl
      have howed : PendingReq.owed ps { x.1 with chunkedReq := some x.2.completeOne } =
          divCeil (x.1.inputLen + x.1.outputLen) ps - divCeil x.2.deviceLen ps := rfl
      rw [if_pos rfl, hdec, if_neg Bool.false_ne_true, map_cons, sum_cons, howed]
      omega
    -- the last chunk: what is left is owed to the decode
    | false =>
      have howed : x.2.completeOne.owed ps =
          divCeil (x.2.maxDeviceLen - 1) ps - divCeil x.2.deviceLen ps := rfl
      have h₃ : divCeil (x.2.maxDeviceLen - 1) ps ≤ divCeil (x.1.inputLen + x.1.outputLen) ps :=
        divCeil_mono (by omega) ps
      rw [if_neg Bool.false_ne_true]
      dsimp only
      split_ifs
      · rw [map_cons, sum_cons, howed]
        omega
      · omega

end growth

/-! ### The invariant -/

section run

variable {μ η α : Type} [BaseCacheHandle η] [PrefillCache μ η] [CountedCache μ η]
  {s : ServeSys μ η α}

/-- The pages that are there cover the locked pages and what is reserved for the requests that
decode and for the rest of the prompts that are in part cached. -/
structure ServeSys.Inv (s : ServeSys μ η α) : Prop where
  ok : Ok s.cache (s.live.map Req.cacheHandle)
  pageSize_eq : s.decode.pageSize = pageSize s.cache
  held : ∀ r ∈ s.live, r.Held ∧ r.deviceLen = r.cachedLen + 1
  carries : ∀ p ∈ s.prefill.pendingList, p.Carries
  first : ChunksFirst s.prefill.pendingList
  running : ∀ r ∈ s.decode.runningReqs, r.canDecode = true
  fits : runningPages (pageSize s.cache) s.decode.runningReqs +
    owedPages (pageSize s.cache) s.prefill.pendingList +
    prefixCount (pageSize s.cache) (lockedPaths (s.live.map Req.cacheHandle)) ≤
      kept s.cache

/-- The requests that hold a handle when the requests `reqs` have been scheduled. -/
def ServeSys.holding (s : ServeSys μ η α) (reqs : List (Req η)) : List (Req η) :=
  reqs ++ ((s.prefill.pendingList.drop reqs.length).filterMap PendingReq.chunkedReq ++
    (s.decode.runningReqs ++ s.others))

/-- What holds of a batch that has been scheduled. -/
structure ServeSys.Scheduled (s : ServeSys μ η α) (pm : PrefillManager μ η α) (b : PrefillBatch η) :
    Prop where
  same : SameCount s.cache pm.cacheManager
  ok : Ok pm.cacheManager ((s.holding b.reqs).map Req.cacheHandle)
  length_le : b.reqs.length ≤ s.prefill.pendingList.length
  adds : ∀ x ∈ s.prefill.pendingList.zip b.reqs, x.1.Adds x.2
  pendingList : pm.pendingList = (s.prefill.pendingList.zip b.reqs).filterMap continuation ++
    s.prefill.pendingList.drop b.reqs.length
  fits : runningPages (pageSize s.cache) s.decode.runningReqs +
    (b.reqs.map (Req.growth (pageSize s.cache))).sum +
    owedPages (pageSize s.cache) ((s.prefill.pendingList.zip b.reqs).filterMap completed) +
    runningPages (pageSize s.cache) ((b.reqs.map Req.completeOne).filter Req.canDecode) +
    owedPages (pageSize s.cache) (s.prefill.pendingList.drop b.reqs.length) +
    prefixCount (pageSize s.cache) (lockedPaths ((s.holding b.reqs).map Req.cacheHandle)) ≤
      kept s.cache

variable {pm : PrefillManager μ η α} {r : Req η} {prefillBudget : ℕ} {b : PrefillBatch η}
  {tic : ℕ → ℤ}

namespace ServeSys.Inv

omit [BaseCacheHandle η] [PrefillCache μ η] [CountedCache μ η] in
theorem mem_live_of_running (h : r ∈ s.decode.runningReqs) : r ∈ s.live :=
  mem_append_right _ (mem_append_left _ h)

theorem pos (h : s.Inv) : 0 < pageSize s.cache := pageSize_pos h.ok

theorem running_lt (h : s.Inv) (hr : r ∈ s.decode.runningReqs) :
    r.deviceLen = r.cachedLen + 1 ∧ r.deviceLen < r.maxDeviceLen := by
  refine ⟨(h.held r (mem_live_of_running hr)).2, ?_⟩
  have hdec := h.running r hr
  unfold Req.canDecode Req.remainLen at hdec
  rw [Bool.and_eq_true, decide_eq_true_iff] at hdec
  omega

/-- The adder of a pass begins with what the running requests still need. -/
theorem solvent (h : s.Inv) (hclosed : Closed s.cache) (prefillBudget : ℕ) :
    (s.prefill.adder s.decode.inflightTokens prefillBudget).Solvent s.prefill.pendingList
      ((s.decode.runningReqs ++ s.others).map Req.cacheHandle)
      (runningPages (pageSize s.cache) s.decode.runningReqs) := by
  have hlive : s.live.map Req.cacheHandle = chunkHandles s.prefill.pendingList ++
      (s.decode.runningReqs ++ s.others).map Req.cacheHandle := map_append
  have hok := h.ok
  have hfits := h.fits
  rw [hlive] at hok hfits
  refine ⟨hok, hclosed, ?_, hfits⟩
  show _ * pageSize s.cache ≤ s.decode.inflightTokens
  have hle := runningPages_mul_le h.pos fun r hr => (h.running_lt hr).1
  rw [← h.pageSize_eq] at hle ⊢
  exact hle

/-- **What a pass schedules fits** in what is free or evictable, and leaves what the running
requests, the continuations and the requests that will run still need. -/
theorem scheduled (h : s.Inv) (hclosed : Closed s.cache) (hb : s.prefill.scheduleNextBatch
      s.decode.inflightTokens prefillBudget tic = some (pm, some b)) : s.Scheduled pm b := by
  obtain ⟨hlen, hchunks, hlist, -, -⟩ := scheduleNextBatch_spec hb
  obtain ⟨pass, hpass, heq⟩ := Option.map_eq_some_iff.mp hb
  obtain ⟨hs, hok, hfits, hadd⟩ :=
    addLoop_solvent hpass h.first h.carries (h.solvent hclosed prefillBudget)
  dsimp only at heq
  split_ifs at heq
  · cases heq
  · obtain ⟨rfl, hreqs⟩ := Prod.mk.inj heq
    obtain rfl := Option.some.inj hreqs
    dsimp only at hlen hchunks hlist
    have hsnd : (s.prefill.pendingList.zip pass.reqs).map Prod.snd = pass.reqs :=
      map_snd_zip hlen
    have hadds : ∀ x ∈ s.prefill.pendingList.zip pass.reqs, x.1.Adds x.2 := fun x hx =>
      ⟨hchunks x hx, (hadd x hx).1, (hadd x hx).2.1, (hadd x hx).2.2⟩
    have hgrowth := growth_add_le_addedPages (pageSize s.cache) hadds
    have hheld : (s.holding pass.reqs).map Req.cacheHandle = pass.reqs.map Req.cacheHandle ++
        (chunkHandles (s.prefill.pendingList.drop pass.reqs.length) ++
          (s.decode.runningReqs ++ s.others).map Req.cacheHandle) := by
      unfold ServeSys.holding
      rw [map_append, map_append]
      rfl
    rw [hsnd] at hgrowth
    rw [← hheld] at hok hfits
    refine ⟨hs, hok, hlen, hadds, hlist, le_trans ?_ hfits⟩
    show _ ≤ _ + addedPages (pageSize s.cache) _ +
      owedPages (pageSize s.cache) _ + prefixCount (pageSize s.cache) _
    dsimp only
    omega

end ServeSys.Inv

namespace ServeSys.Scheduled

variable {pm : PrefillManager μ η α} {b : PrefillBatch η} {m m' : μ}

/-- **The pages that a prefill batch needs are free or evictable.** -/
theorem needed_le (h : s.Scheduled pm b) (hm : Other pm.cacheManager m) (hclosed : Closed m) :
    (neededPages (allocationInfo (pageSize m) b.reqs) * pageSize m : ℕ) ≤ availableSize m := by
  obtain ⟨hok, hps, hkept⟩ := other_spec h.ok hm
  rw [availableSize_eq hok hclosed, neededPages_eq, hkept, hps, h.same.kept, h.same.pageSize]
  have hfits := h.fits
  rw [Nat.cast_mul]
  apply mul_le_mul_of_nonneg_right ?_ (Int.natCast_nonneg _)
  omega

omit [BaseCacheHandle η] [PrefillCache μ η] [CountedCache μ η] in
theorem pendingList_completeChunks
    (hlist : pm.pendingList = (s.prefill.pendingList.zip b.reqs).filterMap continuation ++
      s.prefill.pendingList.drop b.reqs.length)
    (hlen : b.reqs.length ≤ s.prefill.pendingList.length) :
    (PrefillManager.completeChunks { pm with cacheManager := m }
      (b.reqs.countP Req.chunked)).pendingList =
      (s.prefill.pendingList.zip b.reqs).filterMap completed ++
        s.prefill.pendingList.drop b.reqs.length := by
  show (pm.pendingList.take _).map _ ++ pm.pendingList.drop _ = _
  rw [← length_continuations hlen, hlist, take_left, drop_left, map_filterMap]
  congr 1
  apply filterMap_congr
  intro x _
  unfold continuation completed
  split_ifs <;> rfl

omit [BaseCacheHandle η] [PrefillCache μ η] [CountedCache μ η] in
/-- The requests of a batch that has been run: chunks, running requests, and those that are done. -/
theorem perm_completed (reqs : List (Req η)) :
    (reqs.filter Req.chunked ++ (reqs.filter Req.canDecode ++
      reqs.filter fun r => !r.chunked && !r.canDecode)).Perm reqs := by
  have hrest := filter_append_perm Req.canDecode (reqs.filter fun r => !r.chunked)
  rw [filter_filter, filter_filter] at hrest
  have hdec : reqs.filter (fun r => r.canDecode && !r.chunked) = reqs.filter Req.canDecode := by
    apply filter_congr
    intro r _
    unfold Req.canDecode
    cases r.chunked <;> simp
  have hnot : reqs.filter (fun r => !r.canDecode && !r.chunked) =
      reqs.filter fun r => !r.chunked && !r.canDecode := by
    apply filter_congr
    intro r _
    exact Bool.and_comm _ _
  rw [hdec, hnot] at hrest
  exact (hrest.append_left _).trans (filter_append_perm Req.chunked reqs)

omit [BaseCacheHandle η] [PrefillCache μ η] [CountedCache μ η] in
theorem chunks_completed {added : List (PendingReq η × Req η)} :
    (added.filterMap completed).filterMap PendingReq.chunkedReq =
      ((added.map Prod.snd).map Req.completeOne).filter Req.chunked := by
  induction added with
  | nil => rfl
  | cons x added ih =>
    rw [filterMap_cons, map_cons, map_cons, filter_cons, completed]
    have hc : x.2.completeOne.chunked = x.2.chunked := rfl
    rw [hc]
    cases x.2.chunked with
    | true =>
      rw [if_pos rfl, if_pos rfl, filterMap_cons, ih]
    | false =>
      rw [if_neg Bool.false_ne_true, if_neg Bool.false_ne_true]
      exact ih

theorem live_runPrefill (h : s.Inv) (hb : s.Scheduled pm b) :
    ((s.runPrefill { pm with cacheManager := m } b).live).Perm
      (b.reqs.map Req.completeOne ++
        ((s.prefill.pendingList.drop b.reqs.length).filterMap PendingReq.chunkedReq ++
          (s.decode.runningReqs ++ s.others))) := by
  have hsnd : (s.prefill.pendingList.zip b.reqs).map Prod.snd = b.reqs :=
    map_snd_zip hb.length_le
  have hrunning : s.decode.runningReqs.filter Req.canDecode = s.decode.runningReqs :=
    List.filter_eq_self.mpr h.running
  have hperm := perm_completed (b.reqs.map Req.completeOne)
  show List.Perm
    ((PrefillManager.completeChunks { pm with cacheManager := m } _).pendingList.filterMap _ ++
    ((s.decode.runningReqs ++ b.reqs.map Req.completeOne).filter Req.canDecode ++
      ((b.reqs.map Req.completeOne).filter _ ++ s.others))) _
  rw [pendingList_completeChunks hb.pendingList hb.length_le, filterMap_append, chunks_completed,
    hsnd, filter_append, hrunning]
  classical
  rw [perm_iff_count]
  intro r
  have hcount := hperm.count_eq r
  simp only [count_append] at hcount ⊢
  omega

end ServeSys.Scheduled

variable {rest reqs : List (Req η)} {m : μ}

namespace ServeSys.Inv

/-- **A prefill pass keeps the invariant.** -/
theorem prefillBatch (h : s.Inv) {m' : μ}
    (hb : s.Scheduled pm b) (hm : Other pm.cacheManager m) (ha : AllocatePaged m b.reqs m') :
    (s.runPrefill { pm with cacheManager := m' } b).Inv := by
  obtain ⟨hok₁, hps₁, hkept₁⟩ := other_spec hb.ok hm
  obtain ⟨hok₂, hps₂, hkept₂⟩ := allocatePaged_spec hok₁ ha
  have hps : pageSize m' = pageSize s.cache := hps₂.trans (hps₁.trans hb.same.pageSize)
  have hlive := hb.live_runPrefill h (m := m')
  have hlist := Scheduled.pendingList_completeChunks (m := m') hb.pendingList hb.length_le
  have hhandles : ((s.holding b.reqs).map Req.cacheHandle).Perm
      ((s.runPrefill { pm with cacheManager := m' } b).live.map Req.cacheHandle) := by
    refine List.Perm.trans (.of_eq ?_) (hlive.symm.map _)
    unfold holding
    simp only [map_append, map_map]
    rfl
  have hadd : ∀ r ∈ b.reqs, ∃ p ∈ s.prefill.pendingList, p.Adds r := by
    intro r hr
    rw [← map_snd_zip hb.length_le] at hr
    obtain ⟨x, hx, rfl⟩ := List.mem_map.mp hr
    exact ⟨x.1, (of_mem_zip hx).1, hb.adds x hx⟩
  refine ⟨ok_perm hok₂ hhandles, h.pageSize_eq.trans hps.symm, ?_, ?_, ?_, ?_, ?_⟩
  · -- what a request holds: a new one by its chunk, another one as before
    intro r hr
    rcases List.mem_append.mp (hlive.mem_iff.mp hr) with hr | hr
    · obtain ⟨r', hr', rfl⟩ := List.mem_map.mp hr
      obtain ⟨p, -, hadds⟩ := hadd r' hr'
      have hcached : r'.cachedLen = p.nextStart r' := hadds.chunk.cachedLen
      have hlt := hadds.chunk.lt
      have hle := hadds.le
      refine ⟨⟨?_, ?_⟩, rfl⟩
      · show BaseCacheHandle.node r'.cacheHandle =
          r'.inputIds.take (BaseCacheHandle.cachedLen r'.cacheHandle)
        rw [hadds.node, hadds.chunk.inputIds, take_take, min_eq_left (by omega)]
      · show BaseCacheHandle.cachedLen r'.cacheHandle ≤ r'.deviceLen
        omega
    · rcases List.mem_append.mp hr with hr | hr
      · refine h.held r (mem_append_left _ ?_)
        exact ((drop_sublist _ _).filterMap _).subset hr
      · exact h.held r (mem_append_right _ hr)
  · -- the requests with a chunk behind them carry it
    intro p hp c hc
    change p ∈ (PrefillManager.completeChunks _ _).pendingList at hp
    rw [hlist] at hp
    rcases List.mem_append.mp hp with hp | hp
    · obtain ⟨x, hx, hcomp⟩ := List.mem_filterMap.mp hp
      have hadds := hb.adds x hx
      have hcached : x.2.cachedLen = x.1.nextStart x.2 := hadds.chunk.cachedLen
      have hlt := hadds.chunk.lt
      have hle := hadds.le
      unfold completed at hcomp
      split_ifs at hcomp
      obtain rfl := Option.some.inj hcomp
      obtain rfl := Option.some.inj hc
      refine ⟨hadds.node, ?_⟩
      show BaseCacheHandle.cachedLen x.2.cacheHandle ≤ x.2.deviceLen
      omega
    · exact h.carries p (mem_of_mem_drop hp) c hc
  · -- they are put before the others
    show ChunksFirst (PrefillManager.completeChunks _ _).pendingList
    rw [hlist]
    have hsome : ∀ p ∈ (s.prefill.pendingList.zip b.reqs).filterMap completed,
        p.chunkedReq.isSome = true := by
      intro p hp
      obtain ⟨x, -, hcomp⟩ := List.mem_filterMap.mp hp
      unfold completed at hcomp
      split_ifs at hcomp
      obtain rfl := Option.some.inj hcomp
      rfl
    refine List.pairwise_append.mpr ⟨?_, h.first.sublist (drop_sublist _ _),
      fun p hp q _ _ => hsome p hp⟩
    exact pairwise_of_forall_mem_list fun p hp q _ _ => hsome p hp
  · intro r hr
    exact (List.mem_filter.mp hr).2
  · -- what the pass reserved is now owed to the requests, pending or running
    have hrunning : s.decode.runningReqs.filter Req.canDecode = s.decode.runningReqs :=
      List.filter_eq_self.mpr h.running
    have hfits := hb.fits
    rw [prefixCount_lockedPaths hhandles] at hfits
    show runningPages (pageSize m')
      ((s.decode.runningReqs ++ b.reqs.map Req.completeOne).filter _) +
      owedPages (pageSize m') (PrefillManager.completeChunks _ _).pendingList +
      prefixCount (pageSize m') _ ≤ kept m'
    rw [hlist, hps, filter_append, hrunning]
    rw [hkept₁, hb.same.kept, neededPages_eq, hps₁, hb.same.pageSize] at hkept₂
    unfold runningPages owedPages at hfits ⊢
    rw [map_append, sum_append, map_append, sum_append]
    omega

theorem noPrefill (h : s.Inv) (hclosed : Closed s.cache)
    (hb : s.prefill.scheduleNextBatch s.decode.inflightTokens prefillBudget
      tic = some (pm, none)) : ServeSys.Inv { s with prefill := pm } := by
  have hlist := scheduleNextBatch_none hb
  obtain ⟨pass, hpass, heq⟩ := Option.map_eq_some_iff.mp hb
  obtain ⟨hs, hok, -, -⟩ :=
    addLoop_solvent hpass h.first h.carries (h.solvent hclosed prefillBudget)
  dsimp only at heq
  split_ifs at heq with hnil
  · obtain rfl := (Prod.mk.inj heq).1
    rw [hnil] at hok
    have hok' : Ok pass.adder.cacheManager (s.live.map Req.cacheHandle) := by
      unfold live
      rw [map_append]
      exact hok
    refine ⟨hok', h.pageSize_eq.trans hs.pageSize.symm, h.held, h.carries, h.first, h.running, ?_⟩
    show runningPages (pageSize pass.adder.cacheManager) _ + owedPages
      (pageSize pass.adder.cacheManager) _ +
      prefixCount (pageSize pass.adder.cacheManager) _ ≤ kept pass.adder.cacheManager
    rw [hs.pageSize, hs.kept]
    exact h.fits
  · cases heq

/-- **The pages that a decode batch needs are free or evictable.** -/
theorem decode_needed_le (h : s.Inv) (hclosed : Closed s.cache)
    (hb : s.decode.scheduleNextBatch = some reqs) :
    (neededPages (allocationInfo (pageSize s.cache) reqs) *
      pageSize s.cache : ℕ) ≤ availableSize s.cache := by
  have hperm : reqs.Perm s.decode.runningReqs := by
    unfold DecodeManager.scheduleNextBatch at hb
    split_ifs at hb
    obtain rfl := Option.some.inj hb
    exact mergeSort_perm _ _
  have hfits := h.fits
  have hgrowth := growth_add_runningPages (pageSize s.cache) fun r hr => h.running_lt hr
  rw [availableSize_eq h.ok hclosed, neededPages_perm hperm, neededPages_eq]
  rw [Nat.cast_mul]
  apply mul_le_mul_of_nonneg_right ?_ (Int.natCast_nonneg _)
  omega

/-- **A decode pass keeps the invariant.** -/
theorem decodeBatch (h : s.Inv)
    (hb : s.decode.scheduleNextBatch = some reqs) (ha : AllocatePaged s.cache reqs m) :
    (s.runDecode m).Inv := by
  have hperm : reqs.Perm s.decode.runningReqs := by
    unfold DecodeManager.scheduleNextBatch at hb
    split_ifs at hb
    obtain rfl := Option.some.inj hb
    exact mergeSort_perm _ _
  obtain ⟨hok, hps, hkept⟩ := allocatePaged_spec h.ok ha
  have hlive : (s.runDecode m).live.Perm (s.prefill.pendingList.filterMap PendingReq.chunkedReq ++
      (s.decode.runningReqs.map Req.completeOne ++ s.others)) := by
    have hsplit := filter_append_perm Req.canDecode (s.decode.runningReqs.map Req.completeOne)
    show List.Perm
      (_ ++ ((s.decode.runningReqs.map Req.completeOne ++ []).filter _ ++ (_ ++ s.others))) _
    rw [append_nil, ← append_assoc (List.filter _ _)]
    exact (hsplit.append_right _).append_left _
  have hhandles : (s.live.map Req.cacheHandle).Perm ((s.runDecode m).live.map Req.cacheHandle) := by
    refine List.Perm.trans (.of_eq ?_) (hlive.symm.map _)
    unfold live
    simp only [map_append, map_map]
    rfl
  refine ⟨ok_perm hok hhandles, h.pageSize_eq.trans hps.symm, ?_, h.carries, h.first, ?_, ?_⟩
  · intro r hr
    rcases List.mem_append.mp (hlive.mem_iff.mp hr) with hr | hr
    · exact h.held r (mem_append_left _ hr)
    · rcases List.mem_append.mp hr with hr | hr
      · obtain ⟨r', hr', rfl⟩ := List.mem_map.mp hr
        obtain ⟨hheld, hdev⟩ := h.held r' (mem_live_of_running hr')
        refine ⟨⟨hheld.node, ?_⟩, rfl⟩
        have := hheld.le
        show BaseCacheHandle.cachedLen r'.cacheHandle ≤ r'.deviceLen
        omega
      · exact h.held r (mem_append_right _ (mem_append_right _ hr))
  · intro r hr
    exact (List.mem_filter.mp hr).2
  · have hfits := h.fits
    -- what the batch takes now was owed to it before
    have hgrowth := growth_add_runningPages (pageSize s.cache)
      fun r hr => h.running_lt hr
    rw [prefixCount_lockedPaths hhandles] at hfits
    rw [neededPages_perm hperm, neededPages_eq] at hkept
    show runningPages (pageSize m) ((s.decode.runningReqs.map Req.completeOne ++ []).filter _) +
      owedPages (pageSize m) s.prefill.pendingList + prefixCount (pageSize m) _ ≤ kept m
    rw [append_nil, hps]
    omega

omit [BaseCacheHandle η] [PrefillCache μ η] [CountedCache μ η] in
theorem live_running (hr : s.decode.runningReqs.Perm (r :: rest)) :
    s.live.Perm
      (r :: (s.prefill.pendingList.filterMap PendingReq.chunkedReq ++ (rest ++ s.others))) := by
  refine List.Perm.trans ((hr.append_right _).append_left _) ?_
  rw [cons_append]
  exact perm_middle

/-- **A commit keeps the invariant**: what it locks it has handed in. -/
theorem commit (h : s.Inv) {r' : Req η}
    (hr : s.decode.runningReqs.Perm (r :: rest)) (hc : Commit s.cache r m r') :
    ServeSys.Inv { s.withCache m with decode := { s.decode with runningReqs := r' :: rest } } := by
  have hlive := live_running hr
  have hmem : r ∈ s.live := hlive.mem_iff.mpr mem_cons_self
  obtain ⟨hheld, hdev⟩ := h.held r hmem
  have hok := ok_perm h.ok (hlive.map Req.cacheHandle)
  obtain ⟨hok', hps, hspan, -, hheld', hkept⟩ := commit_spec hok hheld (by omega) hc
  have hlen := handle_spec hok mem_cons_self
  have hlen' := handle_spec hok' mem_cons_self
  have hlive' : ({ s.withCache m with decode := { s.decode with runningReqs := r' :: rest } } :
      ServeSys μ η α).live.Perm
        (r' :: (s.prefill.pendingList.filterMap PendingReq.chunkedReq ++ (rest ++ s.others))) :=
    live_running (.refl _)
  have hsame : (∀ q ∈ rest, q.canDecode = true) ∧ r'.canDecode = r.canDecode ∧
      r'.owed (pageSize s.cache) = r.owed (pageSize s.cache) := by
    refine ⟨fun q hq => h.running q (hr.mem_iff.mpr (mem_cons_of_mem r hq)), ?_, ?_⟩
    · unfold Req.canDecode Req.remainLen
      rw [hspan.chunked, hspan.deviceLen, hspan.maxDeviceLen]
    · unfold Req.owed
      rw [hspan.cachedLen, hspan.maxDeviceLen]
  refine ⟨ok_perm hok' (hlive'.symm.map _), h.pageSize_eq.trans hps.symm, ?_, h.carries, h.first,
    ?_, ?_⟩
  · intro q hq
    rcases List.mem_cons.mp (hlive'.mem_iff.mp hq) with rfl | hq
    · refine ⟨hheld', ?_⟩
      rw [hspan.deviceLen, hspan.cachedLen, hdev]
    · exact h.held q (hlive.mem_iff.mpr (mem_cons_of_mem r hq))
  · intro q hq
    rcases List.mem_cons.mp hq with rfl | hq
    · rw [hsame.2.1]
      exact h.running r (hr.mem_iff.mpr mem_cons_self)
    · exact hsame.1 q hq
  · have hfits := h.fits
    rw [prefixCount_lockedPaths (hlive.map Req.cacheHandle), runningPages_perm hr] at hfits
    -- the new handle extends the old one, or is cut short of it
    have hprefix : BaseCacheHandle.node r.cacheHandle <+: BaseCacheHandle.node r'.cacheHandle ∨
        BaseCacheHandle.node r'.cacheHandle <+: BaseCacheHandle.node r.cacheHandle := by
      obtain ⟨hnode', -⟩ := hheld'
      obtain ⟨-, -, -, hids, -⟩ := commit_spec hok hheld (by omega) hc
      rw [hids] at hnode'
      rw [hheld.node, hnode']
      exact prefix_or_prefix_of_prefix (List.take_prefix _ _) (List.take_prefix _ _)
    obtain ⟨others, hothers⟩ : ∃ others, others = lockedPaths ((s.prefill.pendingList.filterMap
        PendingReq.chunkedReq ++ (rest ++ s.others)).map Req.cacheHandle) := ⟨_, rfl⟩
    -- it locks no more pages than it adds to the kept ones
    have hreplace : prefixCount _ (_ :: others) ≤ prefixCount _ (_ :: others) + _ :=
      prefixCount_replace h.pos hprefix
    rw [hlen, hlen'] at hreplace
    show runningPages (pageSize m) (r' :: rest) + owedPages (pageSize m) s.prefill.pendingList +
      prefixCount (pageSize m) _ ≤ kept m
    rw [prefixCount_lockedPaths (hlive'.map Req.cacheHandle), hps]
    have hrun : runningPages (pageSize s.cache) (r' :: rest) =
        runningPages (pageSize s.cache) (r :: rest) := by
      unfold runningPages
      rw [map_cons, map_cons, sum_cons, sum_cons, hsame.2.2]
    rw [hrun]
    unfold lockedPaths at hfits hothers ⊢
    rw [map_cons, map_cons, ← hothers] at hfits ⊢
    omega

theorem shrink (h : s.Inv) {s' : ServeSys μ η α} (hcache : s'.cache = s.cache)
    (hps : s'.decode.pageSize = s.decode.pageSize) (hlive : s.live.Perm s'.live)
    (hpending : s'.prefill.pendingList.Sublist s.prefill.pendingList)
    (hrunning : ∀ r ∈ s'.decode.runningReqs, r ∈ s.decode.runningReqs)
    (hle : ∀ ps, runningPages ps s'.decode.runningReqs + owedPages ps s'.prefill.pendingList ≤
      runningPages ps s.decode.runningReqs + owedPages ps s.prefill.pendingList) : s'.Inv := by
  have hfits := h.fits
  have hle := hle (pageSize s.cache)
  rw [prefixCount_lockedPaths (hlive.map Req.cacheHandle)] at hfits
  refine ⟨?_, ?_, fun r hr => h.held r (hlive.mem_iff.mpr hr), fun p hp =>
    h.carries p (hpending.subset hp), h.first.sublist hpending, fun r hr =>
    h.running r (hrunning r hr), ?_⟩
  · rw [hcache]
    exact ok_perm h.ok (hlive.map _)
  · rw [hps, hcache]
    exact h.pageSize_eq
  · rw [hcache]
    omega

theorem removeReq (h : s.Inv)
    (hr : s.decode.runningReqs.Perm (r :: rest)) :
    ServeSys.Inv { s with decode := { s.decode with runningReqs := rest }, others := r ::
      s.others } := by
  apply h.shrink
  · rfl
  · rfl
  · refine (live_running hr).trans (List.perm_middle.symm.trans ?_)
    exact List.perm_middle.symm.append_left _
  · exact List.Sublist.refl _
  · exact fun q hq => hr.mem_iff.mpr (mem_cons_of_mem r hq)
  · intro ps
    apply Nat.add_le_add_right
    rw [runningPages_perm hr]
    exact Nat.le_add_left _ _

theorem abortPending (h : s.Inv) (uid : ℕ) : (s.abortPending uid).Inv := by
  have hperm := perm_eraseP_find? (fun req : PendingReq η => req.uid == uid) s.prefill.pendingList
  have hfind : (s.prefill.abortReq uid).2.toList =
      (s.prefill.pendingList.find? fun req => req.uid == uid).toList.filterMap
        PendingReq.chunkedReq := by
    show ((s.prefill.pendingList.find? fun req => req.uid == uid).bind
        PendingReq.chunkedReq).toList = _
    cases s.prefill.pendingList.find? fun req => req.uid == uid with
    | none => rfl
    | some req =>
      rw [Option.toList_some, filterMap_cons_toList, filterMap_nil, append_nil]
      rfl
  apply h.shrink
  · rfl
  · rfl
  · show List.Perm _ ((s.prefill.abortReq uid).1.pendingList.filterMap PendingReq.chunkedReq ++
      (s.decode.runningReqs ++ ((s.prefill.abortReq uid).2.toList ++ s.others)))
    rw [hfind]
    refine ((hperm.symm.filterMap PendingReq.chunkedReq).append_right _).trans ?_
    rw [filterMap_append, append_assoc]
    apply List.Perm.append_left
    rw [← append_assoc, ← append_assoc]
    exact List.perm_append_comm.append_right _
  · exact eraseP_sublist
  · exact fun r hr => hr
  · intro ps
    apply Nat.add_le_add_left
    exact (List.eraseP_sublist.map _).sum_le_sum fun n _ => Nat.zero_le n

/-- **A release keeps the invariant.** -/
theorem release (h : s.Inv) (hr : s.others.Perm (r :: rest))
    (hc : Release s.cache r m) : ServeSys.Inv { s.withCache m with others := rest } := by
  have hlive :
    s.live.Perm (r :: ({ s.withCache m with others := rest } : ServeSys μ η α).live) := by
    refine ((hr.append_left _).append_left _).trans ?_
    refine (List.perm_middle.append_left _).trans ?_
    exact perm_middle
  obtain ⟨hheld, hdev⟩ := h.held r (hlive.mem_iff.mpr mem_cons_self)
  obtain ⟨hok, hps, hkept⟩ :=
    release_spec (ok_perm h.ok (hlive.map Req.cacheHandle)) hheld (by omega) hc
  refine ⟨hok, h.pageSize_eq.trans hps.symm, fun q hq =>
    h.held q (hlive.mem_iff.mpr (mem_cons_of_mem r hq)), h.carries, h.first, h.running, ?_⟩
  have hfits := h.fits
  rw [prefixCount_lockedPaths (hlive.map Req.cacheHandle)] at hfits
  have hmono : prefixCount (pageSize s.cache) (lockedPaths
      (({ s.withCache m with others := rest } : ServeSys μ η α).live.map Req.cacheHandle)) ≤
      prefixCount (pageSize s.cache) (lockedPaths
        ((r :: ({ s.withCache m with others := rest } : ServeSys μ η α).live).map Req.cacheHandle))
          :=
    prefixCount_le_of_subset (subset_cons_self _ _)
  show runningPages (pageSize m) s.decode.runningReqs + owedPages
    (pageSize m) s.prefill.pendingList + prefixCount (pageSize m) _ ≤ kept m
  rw [hps]
  omega

theorem touch (h : s.Inv) {f : Req η → Req η}
    (hf : ∀ r, r.SameSpan (f r) ∧ (f r).cacheHandle = r.cacheHandle ∧
      r.inputIds <+: (f r).inputIds) :
    (s.touch f).Inv := by
  -- the ids only grow, so the prefix that the handle names stays
  have hheld : ∀ r, r.Held → (BaseCacheHandle.node r.cacheHandle).length =
      BaseCacheHandle.cachedLen r.cacheHandle → (f r).Held := by
    intro r hr hlen
    obtain ⟨hspan, hhandle, hids⟩ := hf r
    have hle := congrArg List.length hr.node
    rw [hlen, length_take] at hle
    refine ⟨?_, ?_⟩
    · rw [hhandle, hr.node]
      refine (List.prefix_iff_eq_take.mp ((List.take_prefix _ _).trans hids)).trans ?_
      rw [length_take, ← hle]
    · rw [hhandle, hspan.cachedLen]
      exact hr.le
  have hlive : (s.touch f).live = s.live.map f := by
    unfold ServeSys.live ServeSys.touch
    rw [map_append, map_append, filterMap_map, map_filterMap]
    rfl
  have hhandles : (s.touch f).live.map Req.cacheHandle = s.live.map Req.cacheHandle := by
    rw [hlive, map_map]
    exact map_congr_left fun r _ => (hf r).2.1
  refine ⟨?_, h.pageSize_eq, ?_, ?_, ?_, ?_, ?_⟩
  · rw [hhandles]
    exact h.ok
  · intro r hr
    rw [hlive] at hr
    obtain ⟨q, hq, rfl⟩ := List.mem_map.mp hr
    obtain ⟨hq₁, hq₂⟩ := h.held q hq
    refine ⟨hheld q hq₁ (handle_spec h.ok (mem_map_of_mem hq)), ?_⟩
    rw [(hf q).1.deviceLen, (hf q).1.cachedLen]
    exact hq₂
  · intro p hp c hc
    obtain ⟨q, hq, rfl⟩ := List.mem_map.mp hp
    obtain ⟨c', hc', rfl⟩ := Option.map_eq_some_iff.mp hc
    rw [(hf c').2.1, (hf c').1.cachedLen]
    exact h.carries q hq c' hc'
  · refine List.pairwise_map.mpr (h.first.imp fun hpq => ?_)
    rw [Option.isSome_map, Option.isSome_map]
    exact hpq
  · intro r hr
    obtain ⟨q, hq, rfl⟩ := List.mem_map.mp hr
    have hdec := h.running q hq
    unfold Req.canDecode Req.remainLen at hdec ⊢
    rw [(hf q).1.chunked, (hf q).1.deviceLen, (hf q).1.maxDeviceLen]
    exact hdec
  · -- what is owed depends on the spans alone
    have hrun : ∀ ps, runningPages ps (s.decode.runningReqs.map f) =
        runningPages ps s.decode.runningReqs := by
      intro ps
      unfold runningPages
      rw [map_map]
      refine congrArg List.sum (map_congr_left fun r _ => ?_)
      show (f r).owed ps = r.owed ps
      unfold Req.owed
      rw [(hf r).1.cachedLen, (hf r).1.maxDeviceLen]
    have howed : ∀ ps, owedPages ps (s.touch f).prefill.pendingList =
        owedPages ps s.prefill.pendingList := by
      intro ps
      unfold owedPages ServeSys.touch
      rw [map_map]
      refine congrArg List.sum (map_congr_left fun p _ => ?_)
      show PendingReq.owed ps { p with chunkedReq := p.chunkedReq.map f } = p.owed ps
      unfold PendingReq.owed
      cases p.chunkedReq with
      | none => rfl
      | some c =>
        show p.pagesFrom ps (f c).cachedLen = p.pagesFrom ps c.cachedLen
        rw [(hf c).1.cachedLen]
    show runningPages (pageSize s.cache) (s.decode.runningReqs.map f) +
      owedPages (pageSize s.cache) (s.touch f).prefill.pendingList +
      prefixCount (pageSize s.cache) _ ≤ kept s.cache
    rw [hhandles, hrun, howed]
    exact h.fits

theorem addOneReq (h : s.Inv) {req : PendingReq η} (hreq : req.chunkedReq = none) :
    ServeSys.Inv { s with prefill := s.prefill.addOneReq req } := by
  have hchunks : (s.prefill.pendingList ++ [req]).filterMap PendingReq.chunkedReq =
      s.prefill.pendingList.filterMap PendingReq.chunkedReq := by
    rw [filterMap_append, filterMap_cons_none hreq, filterMap_nil, append_nil]
  have hlive : ({ s with prefill := s.prefill.addOneReq req } : ServeSys μ η α).live = s.live :=
    congrArg (· ++ _) hchunks
  refine ⟨?_, h.pageSize_eq, ?_, ?_, ?_, h.running, ?_⟩
  · rw [hlive]
    exact h.ok
  · rw [hlive]
    exact h.held
  · intro p hp c hc
    rcases List.mem_append.mp hp with hp | hp
    · exact h.carries p hp c hc
    · obtain rfl := List.mem_singleton.mp hp
      rw [hreq] at hc
      cases hc
  · refine List.pairwise_append.mpr ⟨h.first, pairwise_singleton _ _, fun p _ q hq hsome => ?_⟩
    obtain rfl := List.mem_singleton.mp hq
    rw [hreq] at hsome
    cases hsome
  · have howed : owedPages (pageSize s.cache) (s.prefill.pendingList ++ [req]) =
        owedPages (pageSize s.cache) s.prefill.pendingList := by
      unfold owedPages
      rw [map_append, sum_append, map_singleton, sum_singleton, PendingReq.owed, hreq]
      rfl
    rw [hlive]
    show _ + owedPages (pageSize s.cache) (s.prefill.pendingList ++ [req]) +
      prefixCount (pageSize s.cache) _ ≤ _
    rw [howed]
    exact h.fits

end ServeSys.Inv

/-- **Every run keeps the invariant.** -/
theorem ServeRun.inv (h : ServeRun s) : s.Inv := by
  induction h with
  | start m tables encoder keepImagesWhole hm =>
    refine ⟨(new_spec hm).1, rfl, fun r hr => absurd hr not_mem_nil,
      fun p hp => absurd hp not_mem_nil, List.Pairwise.nil, fun r hr => absurd hr not_mem_nil, ?_⟩
    exact Nat.zero_le _
  | addOneReq s _ req hreq ih => exact ih.addOneReq hreq
  | prefillBatch s _ hclosed prefillBudget tic pm b m m' hb hm ha ih =>
    exact ih.prefillBatch (ih.scheduled hclosed hb) hm ha
  | noPrefill s _ hclosed prefillBudget tic pm hb ih => exact ih.noPrefill hclosed hb
  | decodeBatch s _ hclosed reqs m hb ha ih => exact ih.decodeBatch hb ha
  | commit s _ r r' rest m hr hc ih => exact ih.commit hr hc
  | removeReq s _ r rest hr ih => exact ih.removeReq hr
  | abortPending s _ uid ih => exact ih.abortPending uid
  | release s _ r rest m hr hc ih => exact ih.release hr hc
  | touch s _ f hf ih => exact ih.touch hf
  | other s _ m tables encoder hm ih =>
    obtain ⟨hok, hps, hkept⟩ := other_spec ih.ok hm
    refine ⟨hok, ih.pageSize_eq.trans hps.symm, ih.held, ih.carries, ih.first, ih.running, ?_⟩
    show runningPages (pageSize m) _ + owedPages (pageSize m) _ + prefixCount (pageSize m) _ ≤
      kept m
    rw [hps, hkept]
    exact ih.fits
  | rebuild s _ m hm hps hidle ih =>
    have hlive : (s.withCache m).live = [] := hidle.2
    refine ⟨?_, ih.pageSize_eq.trans hps.symm, ?_, ih.carries, ih.first, ih.running, ?_⟩
    · rw [hlive]
      exact (new_spec hm).1
    · rw [hlive]
      exact fun r hr => absurd hr not_mem_nil
    · have hrunning : s.decode.runningReqs = [] :=
        (List.append_eq_nil_iff.mp (List.append_eq_nil_iff.mp hidle.2).2).1
      rw [hlive]
      show runningPages _ s.decode.runningReqs + owedPages _ s.prefill.pendingList + _ ≤ _
      rw [hrunning, hidle.1]
      exact Nat.zero_le _

/-- **A batch never needs more pages than are free or evictable**: neither the chunks of a prefill
batch nor the next tokens of the running requests. -/
theorem allocate_fits (h : ServeRun s) (hclosed : Closed s.cache) :
    (∀ prefillBudget tic pm b m,
      s.prefill.scheduleNextBatch s.decode.inflightTokens prefillBudget tic = some (pm, some b) →
      Other pm.cacheManager m → Closed m →
      (neededPages (allocationInfo (pageSize m) b.reqs) * pageSize m : ℕ) ≤ availableSize m) ∧
    ∀ reqs, s.decode.scheduleNextBatch = some reqs →
      (neededPages (allocationInfo (pageSize s.cache) reqs) * pageSize s.cache : ℕ) ≤
        availableSize s.cache :=
  ⟨fun _ _ _ _ _ hb hm hc => (h.inv.scheduled hclosed hb).needed_le hm hc,
    fun _ hb => h.inv.decode_needed_le hclosed hb⟩

end run

end FreeToken
