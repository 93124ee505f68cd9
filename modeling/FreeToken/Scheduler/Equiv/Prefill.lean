import FreeToken.Scheduler.Prefill
import Mathlib.Data.List.Zip

/-!
# Correctness of the prefill scheduling

* `addLoop_spec`: the requests that a pass schedules, and what it collects.
* `PrefillSys.Inv.pass`: a pass keeps the pending list in order and extends the extents of its
  requests.
* `prefill_exactlyOnce`: over a run, the extents of a request are its prompt, cut into chunks.
-/

namespace FreeToken

open List

/-! ### Chunk sizes -/

theorem mmChunkEndLoop_le {chunkLo end_ align cut : ℕ} (spans : List (ℕ × ℕ)) (h : cut ≤ end_) :
    mmChunkEndLoop chunkLo end_ align spans cut ≤ end_ := by
  induction spans generalizing cut with
  | nil => exact h
  | cons span spans ih =>
    obtain ⟨spanLo, spanHi⟩ := span
    unfold mmChunkEndLoop
    dsimp only
    split_ifs with hcut hlo hmove
    · exact le_rfl
    · exact le_rfl
    · apply ih
      exact (alignDown_le _ _).trans (hcut.1.le.trans h)
    · exact ih h

theorem mmChunkEnd_le {items : List MMItem} {chunkLo end_ align : ℕ} :
    mmChunkEnd items chunkLo end_ align ≤ end_ := mmChunkEndLoop_le _ le_rfl

theorem alignChunk_le {align cachedLen remainLen chunkSize : ℕ} :
    alignChunk align cachedLen remainLen chunkSize ≤ chunkSize := by
  unfold alignChunk
  dsimp only
  have := alignDown_le (cachedLen + chunkSize) align
  split_ifs <;> omega

namespace PrefillAdder

variable {μ η α : Type} [BaseCacheHandle η] [PrefillCache μ η] {a a' : PrefillAdder μ α}
  {p : PendingReq η} {k : Carried η} {r : Req η} {tic : ℤ}

omit [BaseCacheHandle η] in
theorem swaChunk_le {floor cachedLen swaEvictedSeqlen remainLen chunkSize n : ℕ}
    (h : a.swaChunk floor cachedLen swaEvictedSeqlen remainLen chunkSize = some n) :
    n ≤ chunkSize := by
  unfold swaChunk at h
  dsimp only at h
  split_ifs at h with hswa hcut haligned
  · obtain rfl := Option.some.inj h
    have hmin :=
      Nat.min_le_left chunkSize (a.swaMaxEnd floor cachedLen swaEvictedSeqlen - cachedLen)
    have hdown := alignDown_le (cachedLen + min chunkSize
      (a.swaMaxEnd floor cachedLen swaEvictedSeqlen - cachedLen))
        (PrefillCache.pageSize a.cacheManager)
    omega
  · obtain rfl := Option.some.inj h
    exact Nat.min_le_left _ _
  · obtain rfl := Option.some.inj h
    exact le_rfl

omit [BaseCacheHandle η] in
theorem imageChunk_le {cachedLen remainLen chunkSize n : ℕ}
    (h : a.imageChunk p cachedLen remainLen chunkSize = some n) : n ≤ chunkSize := by
  have hle := @mmChunkEnd_le p.mmItems cachedLen (cachedLen + chunkSize) a.imageUnit
  unfold imageChunk at h
  dsimp only at h
  split at h
  · split at h
    · split_ifs at h
      obtain rfl := Option.some.inj h
      omega
    · obtain rfl := Option.some.inj h
      omega
  · obtain rfl := Option.some.inj h
    exact le_rfl

theorem chunkSize_le {n : ℕ} (h : a.chunkSize p k = some n) :
    n ≤ min a.tokenBudget (p.inputLen - k.cachedLen) := by
  obtain ⟨m, hm, hn⟩ := Option.bind_eq_some_iff.mp h
  exact (imageChunk_le hn).trans (alignChunk_le.trans (swaChunk_le hm))

end PrefillAdder

/-! ### Added requests -/

/-- The request `r` carries the chunk of the prompt `p` that begins at `start`. -/
structure PendingReq.IsChunk {η : Type} (p : PendingReq η) (start : ℕ) (r : Req η) : Prop where
  uid : r.uid = p.uid
  cachedLen : r.cachedLen = start
  lt : start < r.deviceLen
  le : r.deviceLen ≤ p.inputLen
  chunked : r.chunked = true ↔ r.deviceLen < p.inputLen
  inputIds : r.inputIds = p.inputIds.take r.deviceLen

/-- Where the next chunk of a pending request begins: where its last one ended, or behind the cached
prefix that its admission finds. -/
def PendingReq.nextStart {η : Type} [BaseCacheHandle η] (p : PendingReq η) (r : Req η) : ℕ :=
  match p.chunkedReq with
  | some c => c.cachedLen
  | none => BaseCacheHandle.cachedLen r.cacheHandle

namespace PrefillAdder

variable {μ η α : Type} [BaseCacheHandle η] [PrefillCache μ η] {a a' : PrefillAdder μ α}
  {p : PendingReq η} {k : Carried η} {r : Req η} {tic : ℤ}

/-- What an added request is, and what it costs. -/
theorem addOneReq_spec (h : a.addOneReq p k = some (a', some r)) :
    p.IsChunk k.cachedLen r ∧ r.cacheHandle = k.cacheHandle ∧
      a'.tokenBudget + r.extendLen = a.tokenBudget := by
  unfold addOneReq at h
  split at h
  · cases h
  · next n hn =>
    obtain ⟨r', hr', heq⟩ := Option.map_eq_some_iff.mp h
    obtain ⟨rfl, hr⟩ := Prod.mk.inj heq
    obtain rfl := Option.some.inj hr
    obtain ⟨hlt, rfl⟩ := Req.create_spec hr'
    have hle := chunkSize_le hn
    have hlen : p.inputLen = p.inputIds.length := rfl
    have hend : (p.inputIds.take (k.cachedLen + n)).length = k.cachedLen + n := by
      rw [length_take] at hlt ⊢
      omega
    rw [hend] at hlt
    refine ⟨⟨rfl, rfl, ?_, ?_, ?_, ?_⟩, rfl, ?_⟩
    · exact hlt.trans_eq hend.symm
    · show (p.inputIds.take (k.cachedLen + n)).length ≤ p.inputLen
      omega
    · show decide (n < p.inputLen - k.cachedLen) = true ↔
        (p.inputIds.take (k.cachedLen + n)).length < p.inputLen
      rw [decide_eq_true_iff, hend]
      omega
    · show p.inputIds.take (k.cachedLen + n) =
        p.inputIds.take (p.inputIds.take (k.cachedLen + n)).length
      rw [hend]
    · show a.tokenBudget - n + ((p.inputIds.take (k.cachedLen + n)).length - k.cachedLen) =
        a.tokenBudget
      omega

theorem addOneReq_none (h : a.addOneReq p k = some (a', none)) : a' = a := by
  unfold addOneReq at h
  split at h
  · exact (Prod.mk.inj (Option.some.inj h)).1.symm
  · obtain ⟨r, -, heq⟩ := Option.map_eq_some_iff.mp h
    exact absurd (Prod.mk.inj heq).2 (by simp)

/-- An admitted request begins behind its cached prefix; the budget is as before. -/
theorem tryAllocateOne_spec (h : a.tryAllocateOne p tic = some (a', some k)) :
    k.cachedLen = BaseCacheHandle.cachedLen k.cacheHandle ∧ a'.tokenBudget = a.tokenBudget := by
  unfold tryAllocateOne at h
  split at h
  · cases h
  · dsimp only at h
    split at h
    · cases h
    · split at h
      · cases h
      · split at h
        · cases h
        · obtain ⟨rfl, hk⟩ := Prod.mk.inj (Option.some.inj h)
          obtain rfl := Option.some.inj hk
          exact ⟨rfl, rfl⟩

theorem tryAddOne_spec (h : a.tryAddOne p tic = some (a', some r)) :
    p.IsChunk (p.nextStart r) r ∧ a'.tokenBudget + r.extendLen = a.tokenBudget := by
  unfold tryAddOne at h
  rw [PendingReq.nextStart]
  split_ifs at h
  · cases h
  · cases hc : p.chunkedReq with
    | some c =>
      rw [hc] at h
      obtain ⟨hchunk, -, hbudget⟩ := addOneReq_spec h
      exact ⟨hchunk, hbudget⟩
    | none =>
      rw [hc] at h
      dsimp only at h ⊢
      split at h
      · cases h
      · cases h
      · next a₁ k hk =>
        obtain ⟨hstart, htokens⟩ := tryAllocateOne_spec hk
        obtain ⟨⟨a₂, r'⟩, ha, heq⟩ := Option.map_eq_some_iff.mp h
        cases r' with
        | none => exact absurd (Prod.mk.inj heq).2 (by simp)
        | some r' =>
          obtain ⟨rfl, hr⟩ := Prod.mk.inj heq
          obtain rfl := Option.some.inj hr
          obtain ⟨hchunk, hhandle, hbudget⟩ := addOneReq_spec ha
          rw [hstart, ← hhandle] at hchunk
          exact ⟨hchunk, hbudget.trans htokens⟩

end PrefillAdder

/-! ### A pass -/

variable {tic : ℕ → ℤ} {inflightTokens prefillBudget : ℕ}

section pass

variable {μ η α : Type} [BaseCacheHandle η] [PrefillCache μ η]

/-- How many tokens a batch extends its requests by. -/
def extendLens (reqs : List (Req η)) : ℕ := reqs.foldr (fun r n => r.extendLen + n) 0

/-- The pending request that a scheduled one leaves, if its chunk is not the last. -/
def continuation (x : PendingReq η × Req η) : Option (PendingReq η) :=
  if x.2.chunked then some { x.1 with chunkedReq := some x.2 } else none

/-- What a scheduled request publishes, if it was admitted in this pass. -/
def admissionOf (x : PendingReq η × Req η) : Option (ℕ × ℕ × ℕ) :=
  if x.1.chunkedReq.isNone then
    some (x.2.uid, x.1.inputLen, BaseCacheHandle.cachedLen x.2.cacheHandle)
  else none

/-- **A pass schedules the first requests of the pending list**, each with its next chunk, in the
budget. -/
theorem addLoop_spec {a : PrefillAdder μ α} {ps : List (PendingReq η)}
    {s : PrefillPass μ η α} (h : addLoop a tic ps = some s) :
    s.reqs.length ≤ ps.length ∧
      (∀ x ∈ ps.zip s.reqs, x.1.IsChunk (x.1.nextStart x.2) x.2) ∧
      s.chunkedList = (ps.zip s.reqs).filterMap continuation ∧
      s.promptAdmissions = (ps.zip s.reqs).filterMap admissionOf ∧
      extendLens s.reqs ≤ a.tokenBudget := by
  induction ps generalizing a tic s with
  | nil =>
    obtain rfl := Option.some.inj h
    exact ⟨le_rfl, fun x hx => absurd hx not_mem_nil, rfl, rfl, Nat.zero_le _⟩
  | cons p ps ih =>
    unfold addLoop at h
    split at h
    · cases h
    · next a' ha =>
      obtain rfl := Option.some.inj h
      exact ⟨Nat.zero_le _, fun x hx => absurd hx not_mem_nil, rfl, rfl, Nat.zero_le _⟩
    · next a' r ha =>
      obtain ⟨s', hs', rfl⟩ := Option.map_eq_some_iff.mp h
      obtain ⟨hchunk, hbudget⟩ := PrefillAdder.tryAddOne_spec ha
      obtain ⟨hlen, hchunks, hlist, hadm, hrest⟩ := ih hs'
      refine ⟨Nat.succ_le_succ hlen, List.forall_mem_cons.mpr ⟨hchunk, hchunks⟩, ?_, ?_, ?_⟩
      · show (if r.chunked then { p with chunkedReq := some r } :: s'.chunkedList
          else s'.chunkedList) = ((p, r) :: ps.zip s'.reqs).filterMap continuation
        rw [filterMap_cons, continuation, hlist]
        split_ifs <;> rfl
      · show (if p.chunkedReq.isNone then
            (r.uid, p.inputLen, BaseCacheHandle.cachedLen r.cacheHandle) :: s'.promptAdmissions
          else s'.promptAdmissions) = ((p, r) :: ps.zip s'.reqs).filterMap admissionOf
        rw [filterMap_cons, admissionOf, hadm]
        split_ifs <;> rfl
      · have hclaim : (if p.chunkedReq.isNone then a'.claim p r else a').tokenBudget =
            a'.tokenBudget := by
          split_ifs <;> rfl
        rw [hclaim] at hrest
        show r.extendLen + extendLens s'.reqs ≤ a.tokenBudget
        omega

/-- What `schedule_next_batch` does to the pending list, and the batch it builds. -/
theorem scheduleNextBatch_spec {pm pm' : PrefillManager μ η α} {b : PrefillBatch η}
    (h : pm.scheduleNextBatch inflightTokens prefillBudget tic = some (pm', some b)) :
    b.reqs.length ≤ pm.pendingList.length ∧
      (∀ x ∈ pm.pendingList.zip b.reqs, x.1.IsChunk (x.1.nextStart x.2) x.2) ∧
      pm'.pendingList = (pm.pendingList.zip b.reqs).filterMap continuation ++
        pm.pendingList.drop b.reqs.length ∧
      b.promptAdmissions = (pm.pendingList.zip b.reqs).filterMap admissionOf ∧
      extendLens b.reqs ≤ prefillBudget := by
  obtain ⟨s, hs, heq⟩ := Option.map_eq_some_iff.mp h
  obtain ⟨hlen, hchunks, hlist, hadm, hbudget⟩ := addLoop_spec hs
  dsimp only at heq
  split_ifs at heq
  · cases heq
  · obtain ⟨rfl, hb⟩ := Prod.mk.inj heq
    obtain rfl := Option.some.inj hb
    refine ⟨hlen, hchunks, ?_, hadm, hbudget⟩
    show s.chunkedList ++ pm.pendingList.drop s.reqs.length = _
    rw [hlist]

end pass

/-! ### Tickets -/

/-- A request that was added, with what has been scheduled of it: the extents, each with whether a
`ChunkedReq` carried it, and the cached prefix at admission. -/
structure Ticket (η : Type) where
  arrival : ℕ
  pending : PendingReq η
  start : ℕ := 0
  extents : List (ℕ × ℕ × Bool) := []
deriving DecidableEq, Repr

/-- The extents lie end to end from `lo` to `hi`, and none is empty. -/
def Contiguous : ℕ → ℕ → List (ℕ × ℕ × Bool) → Prop
  | lo, hi, [] => lo = hi
  | lo, hi, e :: extents => e.1 = lo ∧ lo < e.2.1 ∧ Contiguous e.2.1 hi extents

theorem Contiguous.append {lo mid hi : ℕ} {chunked : Bool} {extents : List (ℕ × ℕ × Bool)}
    (h : Contiguous lo mid extents) (hlt : mid < hi) :
    Contiguous lo hi (extents ++ [(mid, hi, chunked)]) := by
  induction extents generalizing lo with
  | nil => exact ⟨Eq.symm h, h ▸ hlt, rfl⟩
  | cons e extents ih => exact ⟨h.1, h.2.1, ih h.2.2⟩

namespace Ticket

variable {η : Type} [BaseCacheHandle η]

/-- One more chunk of the request is scheduled and run. -/
def record (t : Ticket η) (r : Req η) : Ticket η :=
  { t with
    pending := { t.pending with chunkedReq := if r.chunked then some r.completeOne else none }
    start := if t.pending.chunkedReq.isNone then BaseCacheHandle.cachedLen r.cacheHandle
      else t.start
    extents := t.extents ++ [(r.cachedLen, r.deviceLen, r.chunked)] }

omit [BaseCacheHandle η] in
/-- The fields of the request's chunk other than its lengths change. -/
def touch (f : Req η → Req η) (t : Ticket η) : Ticket η :=
  { t with pending := { t.pending with chunkedReq := t.pending.chunkedReq.map f } }

/-- A request that waits: nothing of it has been scheduled, or chunks that end before its prompt
does. -/
def Waiting (t : Ticket η) : Prop :=
  match t.pending.chunkedReq with
  | none => t.extents = []
  | some c => t.extents ≠ [] ∧ Contiguous t.start c.cachedLen t.extents ∧
      c.cachedLen < t.pending.inputLen ∧ ∀ e ∈ t.extents, e.2.2 = true

/-- A request that is done: its chunks are its prompt, and only the last is a plain request. -/
def Done (t : Ticket η) : Prop :=
  ∃ init last, t.extents = init ++ [last] ∧ (∀ e ∈ init, e.2.2 = true) ∧ last.2.2 = false ∧
    Contiguous t.start t.pending.inputLen t.extents

/-- What a request that has been admitted is counted as. -/
def admission (t : Ticket η) : Option (ℕ × ℕ × ℕ) :=
  if t.extents = [] then none else some (t.pending.uid, t.pending.inputLen, t.start)

def added (t : Ticket η) : PendingReq η × ℕ := ({ t.pending with chunkedReq := none }, t.arrival)

variable {t : Ticket η} {r : Req η}

/-- The extents reach to the end of the new chunk. -/
theorem Waiting.contiguous_record (h : t.Waiting)
    (hr : t.pending.IsChunk (t.pending.nextStart r) r) :
    Contiguous (t.record r).start r.deviceLen (t.record r).extents ∧
      ∀ e ∈ t.extents, e.2.2 = true := by
  have hcached := hr.cachedLen
  have hlt := hr.lt
  unfold Waiting at h
  unfold PendingReq.nextStart at hcached hlt
  unfold record
  cases hc : t.pending.chunkedReq with
  | none =>
    rw [hc] at h hcached hlt
    dsimp only at h hcached hlt ⊢
    rw [h, hcached]
    exact ⟨⟨rfl, hlt, rfl⟩, fun e he => absurd he not_mem_nil⟩
  | some c =>
    rw [hc] at h hcached hlt
    dsimp only at hcached hlt ⊢
    rw [hcached]
    exact ⟨h.2.1.append hlt, h.2.2.2⟩

theorem Waiting.record (h : t.Waiting) (hr : t.pending.IsChunk (t.pending.nextStart r) r)
    (hchunked : r.chunked = true) : (t.record r).Waiting := by
  obtain ⟨hcont, hall⟩ := h.contiguous_record hr
  unfold Waiting
  have hreq : (t.record r).pending.chunkedReq = some r.completeOne := if_pos hchunked
  rw [hreq]
  refine ⟨append_ne_nil_of_right_ne_nil _ (cons_ne_nil _ _), hcont,
    hr.chunked.mp hchunked, fun e he => ?_⟩
  rcases List.mem_append.mp he with he | he
  · exact hall e he
  · obtain rfl := List.mem_singleton.mp he
    exact hchunked

theorem Waiting.done (h : t.Waiting) (hr : t.pending.IsChunk (t.pending.nextStart r) r)
    (hchunked : r.chunked = false) : (t.record r).Done := by
  obtain ⟨hcont, hall⟩ := h.contiguous_record hr
  have hend : r.deviceLen = t.pending.inputLen := by
    refine Nat.le_antisymm hr.le (Nat.le_of_not_lt fun hlt => ?_)
    rw [hr.chunked.mpr hlt] at hchunked
    cases hchunked
  rw [hend] at hcont
  exact ⟨t.extents, _, rfl, hall, hchunked, hcont⟩

theorem Waiting.admission_record (h : t.Waiting)
    (hr : t.pending.IsChunk (t.pending.nextStart r) r) :
    ((t.record r).admission).toList.Perm
      (t.admission.toList ++ (admissionOf (t.pending, r)).toList) := by
  have hrecord : (t.record r).admission =
      some (t.pending.uid, t.pending.inputLen, (t.record r).start) :=
    if_neg (append_ne_nil_of_right_ne_nil _ (cons_ne_nil _ _))
  rw [hrecord]
  unfold Waiting at h
  unfold Ticket.record admission admissionOf
  rw [hr.uid]
  cases hc : t.pending.chunkedReq with
  | none =>
    rw [hc] at h
    dsimp only at h
    rw [if_pos h]
    exact .refl _
  | some c =>
    rw [hc] at h
    rw [if_neg h.1]
    exact .refl _

end Ticket

/-! ### Runs -/

/-- The prefill manager, and what has become of each request that was added: it waits, it is done,
or it was aborted.  `published` is what the batches have counted as admitted. -/
structure PrefillSys (μ η α : Type) where
  manager : PrefillManager μ η α
  waiting : List (Ticket η) := []
  done : List (Ticket η) := []
  aborted : List (Ticket η) := []
  added : List (PendingReq η) := []
  published : List (ℕ × ℕ × ℕ) := []

section run

variable {μ η α : Type} [BaseCacheHandle η]

/-- The tickets of the requests of a batch, behind it. -/
def recorded (waiting : List (Ticket η)) (reqs : List (Req η)) : List (Ticket η) :=
  (waiting.zip reqs).map fun x => x.1.record x.2

/-- A batch is scheduled, and its requests are run. -/
def PrefillSys.pass (s : PrefillSys μ η α) (pm : PrefillManager μ η α) (b : PrefillBatch η) :
    PrefillSys μ η α :=
  { s with
    manager := pm.completeChunks (b.reqs.countP Req.chunked)
    waiting := (recorded s.waiting b.reqs).filter (fun t => t.pending.chunkedReq.isSome) ++
      s.waiting.drop b.reqs.length
    done := s.done ++ (recorded s.waiting b.reqs).filter fun t => !t.pending.chunkedReq.isSome
    published := s.published ++ b.promptAdmissions }

end run

/-- The runs of the prefill manager.  Between the passes, the other managers may change in any way,
and so may the fields of the chunks other than the length that has been prefilled. -/
inductive PrefillSysRun {μ η α : Type} [BaseCacheHandle η] [PrefillCache μ η] :
    PrefillSys μ η α → Prop
  | init (m : μ) (tables : TableManager) (encoder : Option (EncoderCache α))
      (keepImagesWhole : Bool) :
      PrefillSysRun { manager := ⟨m, tables, encoder, keepImagesWhole, []⟩ }
  | addOneReq (s : PrefillSys μ η α) (h : PrefillSysRun s) (req : PendingReq η)
      (hreq : req.chunkedReq = none) :
      PrefillSysRun { s with
        manager := s.manager.addOneReq req
        waiting := s.waiting ++ [{ arrival := s.added.length, pending := req }]
        added := s.added ++ [req] }
  | pass (s : PrefillSys μ η α) (h : PrefillSysRun s) (inflightTokens prefillBudget : ℕ)
      (tic : ℕ → ℤ) (pm : PrefillManager μ η α) (b : PrefillBatch η)
      (hb : s.manager.scheduleNextBatch inflightTokens prefillBudget tic = some (pm, some b)) :
      PrefillSysRun (s.pass pm b)
  | noBatch (s : PrefillSys μ η α) (h : PrefillSysRun s) (inflightTokens prefillBudget : ℕ)
      (tic : ℕ → ℤ) (pm : PrefillManager μ η α)
      (hb : s.manager.scheduleNextBatch inflightTokens prefillBudget tic = some (pm, none)) :
      PrefillSysRun { s with manager := pm }
  | abortReq (s : PrefillSys μ η α) (h : PrefillSysRun s) (uid : ℕ) :
      PrefillSysRun { s with
        manager := (s.manager.abortReq uid).1
        waiting := s.waiting.eraseP fun t => t.pending.uid == uid
        aborted := s.aborted ++ (s.waiting.find? fun t => t.pending.uid == uid).toList }
  | other (s : PrefillSys μ η α) (h : PrefillSysRun s) (m : μ) (tables : TableManager)
      (encoder : Option (EncoderCache α)) (f : Req η → Req η)
      (hf : ∀ r, (f r).cachedLen = r.cachedLen) :
      PrefillSysRun { s with
        manager := { s.manager with
          cacheManager := m
          tableManager := tables
          encoderCache := encoder
          pendingList := s.manager.pendingList.map fun req =>
            { req with chunkedReq := req.chunkedReq.map f } }
        waiting := s.waiting.map (Ticket.touch f) }

section run

variable {μ η α : Type}

/-- What holds of the tickets at any time. -/
structure PrefillSys.Inv (s : PrefillSys μ η α) : Prop where
  pending : s.manager.pendingList = s.waiting.map Ticket.pending
  sorted : (s.waiting.map Ticket.arrival).Pairwise (· < ·)
  admittedFirst : s.waiting.Pairwise fun t u => u.extents ≠ [] → t.extents ≠ []
  waiting : ∀ t ∈ s.waiting, t.Waiting
  done : ∀ t ∈ s.done, t.Done
  aborted : ∀ t ∈ s.aborted, t.Waiting
  all : ((s.waiting ++ s.done ++ s.aborted).map Ticket.added).Perm s.added.zipIdx
  published : s.published.Perm ((s.waiting ++ s.done ++ s.aborted).filterMap Ticket.admission)

/-- Taking out the first element that meets a test. -/
theorem perm_eraseP_find? {β : Type} (f : β → Bool) (l : List β) :
    (l.eraseP f ++ (l.find? f).toList).Perm l := by
  induction l with
  | nil => exact .refl _
  | cons x l ih =>
    rw [eraseP_cons, List.find?_cons]
    cases f x with
    | true => exact perm_append_singleton x l
    | false => exact ih.cons x

theorem filterMap_cons_toList {β γ : Type} (f : β → Option γ) (x : β) (l : List β) :
    (x :: l).filterMap f = (f x).toList ++ l.filterMap f := by
  rw [filterMap_cons]
  cases f x <;> rfl

variable {reqs : List (Req η)}

theorem length_continuations {ps : List (PendingReq η)}
    (h : reqs.length ≤ ps.length) :
    ((ps.zip reqs).filterMap continuation).length = reqs.countP Req.chunked := by
  induction reqs generalizing ps with
  | nil =>
    rw [zip_nil_right]
    rfl
  | cons r reqs ih =>
    cases ps with
    | nil => cases h
    | cons p ps =>
      rw [zip_cons_cons, filterMap_cons, countP_cons, continuation, ← ih (Nat.le_of_succ_le_succ h)]
      cases r.chunked <;> rfl

variable {s : PrefillSys μ η α}

theorem PrefillSys.Inv.addOneReq (hs : s.Inv) {req : PendingReq η}
    (hreq : req.chunkedReq = none) :
    PrefillSys.Inv { s with
      manager := s.manager.addOneReq req
      waiting := s.waiting ++ [{ arrival := s.added.length, pending := req }]
      added := s.added ++ [req] } := by
  -- those that wait came before
  have hnew : ∀ t ∈ s.waiting, t.arrival < s.added.length := by
    intro t ht
    have hmem : t.added ∈ s.added.zipIdx := hs.all.mem_iff.mp
      (mem_map_of_mem (mem_append_left _ (mem_append_left _ ht)))
    exact (mem_zipIdx' hmem).1
  refine ⟨?_, ?_, ?_, ?_, hs.done, hs.aborted, ?_, ?_⟩
  · show s.manager.pendingList ++ [req] = _
    rw [hs.pending, map_append]
    rfl
  · show (List.map Ticket.arrival (s.waiting ++ [_])).Pairwise _
    rw [map_append, pairwise_append]
    refine ⟨hs.sorted, pairwise_singleton _ _, fun n hn m hm => ?_⟩
    obtain ⟨t, ht, rfl⟩ := List.mem_map.mp hn
    obtain rfl := List.mem_singleton.mp hm
    exact hnew t ht
  · refine List.pairwise_append.mpr ⟨hs.admittedFirst, pairwise_singleton _ _, fun t _ u hu => ?_⟩
    obtain rfl := List.mem_singleton.mp hu
    exact fun h => absurd rfl h
  · intro t ht
    rcases List.mem_append.mp ht with ht | ht
    · exact hs.waiting t ht
    · obtain rfl := List.mem_singleton.mp ht
      show match req.chunkedReq with | none => _ | some c => _
      rw [hreq]
  · have hadd :
      Ticket.added { arrival := s.added.length, pending := req } = (req, s.added.length) := by
      show ({ req with chunkedReq := none }, s.added.length) = _
      rw [← hreq]
    show (List.map Ticket.added (s.waiting ++ [_] ++ s.done ++ s.aborted)).Perm
      (s.added ++ [req]).zipIdx
    rw [zipIdx_append, zipIdx_singleton, Nat.zero_add]
    refine List.Perm.trans ?_ (hs.all.append_right _)
    rw [map_append, map_append, map_append, map_singleton, hadd, map_append,
      map_append, append_assoc, append_assoc, append_assoc, append_assoc]
    apply List.Perm.append_left
    exact List.perm_append_comm.trans (append_assoc _ _ _ ▸ .refl _)
  · refine hs.published.trans ?_
    show (List.filterMap _ (s.waiting ++ s.done ++ s.aborted)).Perm
      (List.filterMap Ticket.admission (s.waiting ++ [_] ++ s.done ++ s.aborted))
    rw [filterMap_append, filterMap_append, filterMap_append, filterMap_append, filterMap_append]
    have hnone : [({ arrival := s.added.length, pending := req } : Ticket η)].filterMap
        Ticket.admission = [] := rfl
    rw [hnone, append_nil]

theorem PrefillSys.Inv.abortReq (hs : s.Inv) (uid : ℕ) :
    PrefillSys.Inv { s with
      manager := (s.manager.abortReq uid).1
      waiting := s.waiting.eraseP fun t => t.pending.uid == uid
      aborted := s.aborted ++ (s.waiting.find? fun t => t.pending.uid == uid).toList } := by
  have hsub := eraseP_sublist (p := fun t : Ticket η => t.pending.uid == uid) (l := s.waiting)
  have hperm : (s.waiting.eraseP (fun t => t.pending.uid == uid) ++ s.done ++
      (s.aborted ++ (s.waiting.find? fun t => t.pending.uid == uid).toList)).Perm
        (s.waiting ++ s.done ++ s.aborted) := by
    rw [← append_assoc]
    refine List.perm_append_comm.trans ?_
    rw [append_assoc, append_assoc, ← append_assoc]
    apply List.Perm.append_right
    exact List.perm_append_comm.trans (perm_eraseP_find? _ _)
  refine ⟨?_, hs.sorted.sublist (hsub.map _), hs.admittedFirst.sublist hsub,
    fun t ht => hs.waiting t (hsub.subset ht), hs.done, ?_, ?_, ?_⟩
  · show s.manager.pendingList.eraseP _ = _
    rw [hs.pending, eraseP_map]
    rfl
  · intro t ht
    rcases List.mem_append.mp ht with ht | ht
    · exact hs.aborted t ht
    · rw [Option.mem_toList] at ht
      exact hs.waiting t (mem_of_find?_eq_some ht)
  · exact (hperm.map _).trans hs.all
  · exact hs.published.trans (hperm.filterMap _).symm

theorem PrefillSys.Inv.other (hs : s.Inv) (m : μ) (tables : TableManager)
    (encoder : Option (EncoderCache α)) {f : Req η → Req η}
    (hf : ∀ r, (f r).cachedLen = r.cachedLen) :
    PrefillSys.Inv { s with
      manager := { s.manager with
        cacheManager := m
        tableManager := tables
        encoderCache := encoder
        pendingList := s.manager.pendingList.map fun req =>
          { req with chunkedReq := req.chunkedReq.map f } }
      waiting := s.waiting.map (Ticket.touch f) } := by
  refine ⟨?_, ?_, ?_, ?_, hs.done, hs.aborted, ?_, ?_⟩
  · show List.map _ s.manager.pendingList = _
    rw [hs.pending, map_map, map_map]
    rfl
  · show (List.map Ticket.arrival (s.waiting.map _)).Pairwise _
    rw [map_map]
    exact hs.sorted
  · exact List.pairwise_map.mpr hs.admittedFirst
  · intro t ht
    obtain ⟨t', ht', rfl⟩ := List.mem_map.mp ht
    have := hs.waiting t' ht'
    unfold Ticket.Waiting at this ⊢
    show match t'.pending.chunkedReq.map f with | none => _ | some c => _
    -- only the chunk of a waiting ticket is touched, and not its length
    cases hc : t'.pending.chunkedReq with
    | none =>
      rw [hc] at this
      exact this
    | some c =>
      rw [hc] at this
      show _ ∧ Contiguous _ (f c).cachedLen _ ∧ (f c).cachedLen < _ ∧ _
      rw [hf]
      exact this
  · show (List.map Ticket.added (s.waiting.map _ ++ s.done ++ s.aborted)).Perm _
    rw [map_append, map_append, map_map]
    have := hs.all
    rw [map_append, map_append] at this
    exact this
  · show s.published.Perm (List.filterMap Ticket.admission (s.waiting.map _ ++ s.done ++ s.aborted))
    rw [filterMap_append, filterMap_append, filterMap_map]
    have := hs.published
    rw [filterMap_append, filterMap_append] at this
    exact this

variable [BaseCacheHandle η] {waiting : List (Ticket η)}

theorem map_recorded {β : Type} {f : Ticket η → β} (hf : ∀ t r, f (t.record r) = f t)
    (h : reqs.length ≤ waiting.length) :
    (recorded waiting reqs).map f ++ (waiting.drop reqs.length).map f = waiting.map f := by
  induction reqs generalizing waiting with
  | nil =>
    rw [recorded, zip_nil_right]
    rfl
  | cons r reqs ih =>
    cases waiting with
    | nil => cases h
    | cons t waiting =>
      have := ih (Nat.le_of_succ_le_succ h)
      rw [length_cons, drop_succ_cons, recorded, zip_cons_cons, map_cons,
        map_cons, map_cons, hf, cons_append]
      exact congrArg _ this

theorem pending_recorded :
    ((((waiting.map Ticket.pending).zip reqs).filterMap continuation).map fun req =>
        { req with chunkedReq := req.chunkedReq.map Req.completeOne }) =
      ((recorded waiting reqs).filter fun t => t.pending.chunkedReq.isSome).map Ticket.pending := by
  induction waiting generalizing reqs with
  | nil => rfl
  | cons t waiting ih =>
    cases reqs with
    | nil => rfl
    | cons r reqs =>
      rw [map_cons, zip_cons_cons, filterMap_cons, recorded, zip_cons_cons, map_cons, filter_cons]
      cases hr : r.chunked with
      | true =>
        have hsome : (t.record r).pending.chunkedReq.isSome = true := by
          show (if r.chunked = true then some r.completeOne else none).isSome = true
          rw [if_pos hr]
          rfl
        rw [if_pos hsome, continuation, if_pos hr, map_cons, map_cons, ← recorded, ← ih]
        congr 1
        show _ = { t.pending with chunkedReq := if r.chunked = true then some r.completeOne
            else none }
        rw [if_pos hr]
        rfl
      | false =>
        have hnone : ¬ (t.record r).pending.chunkedReq.isSome = true := by
          show ¬ (if r.chunked = true then some r.completeOne else none).isSome = true
          rw [hr]
          exact Bool.false_ne_true
        rw [if_neg hnone, continuation, hr, if_neg Bool.false_ne_true, ← recorded, ← ih]

theorem admission_recorded
    (hlen : reqs.length ≤ waiting.length) (hwaiting : ∀ t ∈ waiting, t.Waiting)
    (hchunks : ∀ x ∈ (waiting.map Ticket.pending).zip reqs, x.1.IsChunk (x.1.nextStart x.2) x.2) :
    ((recorded waiting reqs).filterMap Ticket.admission ++
        (waiting.drop reqs.length).filterMap Ticket.admission).Perm
      (waiting.filterMap Ticket.admission ++
        ((waiting.map Ticket.pending).zip reqs).filterMap admissionOf) := by
  induction reqs generalizing waiting with
  | nil =>
    rw [recorded, zip_nil_right, zip_nil_right, filterMap_nil, append_nil]
    exact .refl _
  | cons r reqs ih =>
    cases waiting with
    | nil => cases hlen
    | cons t waiting =>
      rw [map_cons, zip_cons_cons] at hchunks
      obtain ⟨hchunk, hchunks⟩ := List.forall_mem_cons.mp hchunks
      obtain ⟨ht, hwaiting⟩ := List.forall_mem_cons.mp hwaiting
      have hstep := (ht.admission_record hchunk).append
        (ih (Nat.le_of_succ_le_succ hlen) hwaiting hchunks)
      rw [recorded, zip_cons_cons, map_cons, map_cons, zip_cons_cons,
        length_cons, drop_succ_cons, filterMap_cons_toList, filterMap_cons_toList,
        filterMap_cons_toList, ← recorded, append_assoc]
      refine hstep.trans ?_
      rw [append_assoc, append_assoc]
      apply List.Perm.append_left
      rw [← append_assoc, ← append_assoc]
      exact List.perm_append_comm.append_right _

theorem PrefillSys.pass_perm (s : PrefillSys μ η α) (pm : PrefillManager μ η α)
    (b : PrefillBatch η) :
    ((s.pass pm b).waiting ++ (s.pass pm b).done ++ (s.pass pm b).aborted).Perm
      (recorded s.waiting b.reqs ++ s.waiting.drop b.reqs.length ++ s.done ++ s.aborted) := by
  apply List.Perm.append_right
  show (((recorded s.waiting b.reqs).filter fun t => t.pending.chunkedReq.isSome) ++
      s.waiting.drop b.reqs.length ++ (s.done ++ (recorded s.waiting b.reqs).filter
        fun t => !t.pending.chunkedReq.isSome)).Perm _
  have hsplit := filter_append_perm (fun t : Ticket η => t.pending.chunkedReq.isSome)
    (recorded s.waiting b.reqs)
  refine List.Perm.trans ?_
    ((hsplit.append_right (s.waiting.drop b.reqs.length)).append_right s.done)
  rw [append_assoc, append_assoc, append_assoc]
  apply List.Perm.append_left
  rw [← append_assoc]
  exact perm_append_comm

variable {b : PrefillBatch η}

theorem mem_recorded (hs : s.Inv)
    (hchunks : ∀ x ∈ s.manager.pendingList.zip b.reqs, x.1.IsChunk (x.1.nextStart x.2) x.2)
    {t : Ticket η} (ht : t ∈ recorded s.waiting b.reqs) :
    ∃ (t' : Ticket η) (r : Req η), t = t'.record r ∧ t'.Waiting ∧
      t'.pending.IsChunk (t'.pending.nextStart r) r := by
  obtain ⟨⟨t', r⟩, hx, rfl⟩ := List.mem_map.mp ht
  refine ⟨t', r, rfl, hs.waiting t' (of_mem_zip hx).1, hchunks (t'.pending, r) ?_⟩
  rw [hs.pending, zip_map_left]
  exact List.mem_map.mpr ⟨(t', r), hx, rfl⟩

theorem Ticket.isSome_record (t : Ticket η) (r : Req η) :
    (t.record r).pending.chunkedReq.isSome = r.chunked := by
  show (if r.chunked then some r.completeOne else none).isSome = r.chunked
  cases r.chunked <;> rfl

/-- **A pass keeps the invariant.** -/
theorem PrefillSys.Inv.pass [PrefillCache μ η] (hs : s.Inv) {pm : PrefillManager μ η α}
    (hb : s.manager.scheduleNextBatch inflightTokens prefillBudget tic = some (pm, some b)) :
    (s.pass pm b).Inv := by
  obtain ⟨hlen, hchunks, hlist, hadm, -⟩ := scheduleNextBatch_spec hb
  have hlen' : b.reqs.length ≤ s.waiting.length := by
    rw [hs.pending, length_map] at hlen
    exact hlen
  have hsub : ((recorded s.waiting b.reqs).filter (fun t => t.pending.chunkedReq.isSome) ++
      s.waiting.drop b.reqs.length).Sublist
        (recorded s.waiting b.reqs ++ s.waiting.drop b.reqs.length) :=
    List.filter_sublist.append_right _
  refine ⟨?_, ?_, ?_, ?_, ?_, hs.aborted, ?_, ?_⟩
  · show (pm.completeChunks (b.reqs.countP Req.chunked)).pendingList = List.map _ (_ ++ _)
    rw [← length_continuations hlen]
    show (pm.pendingList.take _).map _ ++ pm.pendingList.drop _ = _
    rw [hlist, take_left, drop_left, map_append, map_drop, ← hs.pending,
      ← pending_recorded, hs.pending]
  · refine List.Pairwise.sublist (hsub.map Ticket.arrival) ?_
    rw [map_append, map_recorded (fun _ _ => rfl) hlen']
    exact hs.sorted
  · -- the requests of the batch have been admitted, and stand before the others
    refine List.pairwise_append.mpr ⟨?_, hs.admittedFirst.sublist (drop_sublist _ _), ?_⟩
    · refine pairwise_of_forall_mem_list fun t ht u _ _ => ?_
      obtain ⟨t', r, rfl, -⟩ := mem_recorded hs hchunks (mem_of_mem_filter ht)
      exact append_ne_nil_of_right_ne_nil _ (cons_ne_nil _ _)
    · intro t ht u _ _
      obtain ⟨t', r, rfl, -⟩ := mem_recorded hs hchunks (mem_of_mem_filter ht)
      exact append_ne_nil_of_right_ne_nil _ (cons_ne_nil _ _)
  · intro t ht
    rcases List.mem_append.mp ht with ht | ht
    · obtain ⟨hmem, hsome⟩ := List.mem_filter.mp ht
      obtain ⟨t', r, rfl, hwait, hchunk⟩ := mem_recorded hs hchunks hmem
      rw [Ticket.isSome_record] at hsome
      exact hwait.record hchunk hsome
    · exact hs.waiting t (mem_of_mem_drop ht)
  · intro t ht
    rcases List.mem_append.mp ht with ht | ht
    · exact hs.done t ht
    · obtain ⟨hmem, hnone⟩ := List.mem_filter.mp ht
      obtain ⟨t', r, rfl, hwait, hchunk⟩ := mem_recorded hs hchunks hmem
      rw [Ticket.isSome_record, Bool.not_eq_true'] at hnone
      exact hwait.done hchunk hnone
  · refine ((s.pass_perm pm b).map Ticket.added).trans ?_
    rw [map_append, map_append, map_append, map_recorded (fun _ _ => rfl) hlen',
      ← map_append, ← map_append]
    exact hs.all
  · show (s.published ++ b.promptAdmissions).Perm _
    refine List.Perm.trans ?_ ((s.pass_perm pm b).filterMap Ticket.admission).symm
    rw [hadm]
    refine (hs.published.append_right _).trans ?_
    have hrec := admission_recorded hlen' hs.waiting (hs.pending ▸ hchunks)
    rw [hs.pending, filterMap_append, filterMap_append, filterMap_append,
      filterMap_append, filterMap_append]
    refine List.Perm.trans ?_ ((hrec.symm.append_right _).append_right _)
    rw [append_assoc, append_assoc, append_assoc, append_assoc]
    apply List.Perm.append_left
    rw [← append_assoc]
    exact perm_append_comm

theorem scheduleNextBatch_none [PrefillCache μ η] {pm pm' : PrefillManager μ η α}
    (h : pm.scheduleNextBatch inflightTokens prefillBudget tic = some (pm', none)) :
    pm'.pendingList = pm.pendingList := by
  obtain ⟨s, -, heq⟩ := Option.map_eq_some_iff.mp h
  dsimp only at heq
  split_ifs at heq
  · obtain rfl := (Prod.mk.inj heq).1
    rfl
  · cases heq

theorem PrefillSysRun.inv [PrefillCache μ η] (h : PrefillSysRun s) : s.Inv := by
  induction h with
  | init m tables encoder keepImagesWhole =>
    exact ⟨rfl, List.Pairwise.nil, List.Pairwise.nil, fun t ht => absurd ht not_mem_nil,
      fun t ht => absurd ht not_mem_nil, fun t ht => absurd ht not_mem_nil, .refl _, .refl _⟩
  | addOneReq s _ req hreq ih => exact ih.addOneReq hreq
  | pass s _ inflightTokens prefillBudget tic pm b hb ih => exact ih.pass hb
  | noBatch s _ inflightTokens prefillBudget tic pm hb ih =>
    exact ⟨(scheduleNextBatch_none hb).trans ih.pending, ih.sorted, ih.admittedFirst, ih.waiting,
      ih.done, ih.aborted, ih.all, ih.published⟩
  | abortReq s _ uid ih => exact ih.abortReq uid
  | other s _ m tables encoder f hf ih => exact ih.other m tables encoder hf

omit [BaseCacheHandle η] in
theorem exists_admitted {tickets : List (Ticket η)}
    (h : tickets.Pairwise fun t u => u.extents ≠ [] → t.extents ≠ []) :
    ∃ k, (∀ t ∈ tickets.take k, t.extents ≠ []) ∧ ∀ t ∈ tickets.drop k, t.extents = [] := by
  induction tickets with
  | nil => exact ⟨0, fun t ht => absurd ht not_mem_nil, fun t ht => absurd ht not_mem_nil⟩
  | cons t tickets ih =>
    obtain ⟨hhead, htail⟩ := List.pairwise_cons.mp h
    by_cases ht : t.extents = []
    · refine ⟨0, fun t ht => absurd ht not_mem_nil, List.forall_mem_cons.mpr ⟨ht, fun u hu => ?_⟩⟩
      by_contra hne
      exact hhead u hu hne ht
    · obtain ⟨k, htake, hdrop⟩ := ih htail
      exact ⟨k + 1, List.forall_mem_cons.mpr ⟨ht, htake⟩, hdrop⟩

/-- **Chunked prefill schedules each prompt exactly once.**  At any time of a run:

* the pending list is that of the waiting requests, in the order of their arrival, and those that
  have been admitted come first;
* every request that was added waits, is done or was aborted, and is none of these twice;
* the extents of a request that is done lie end to end from its cached prefix to the end of its
  prompt, none is empty, and exactly the last is a plain request's; those of the others are a
  beginning;
* the requests that have been admitted are counted once, with their full prompt;
* the next pass takes the first waiting requests, each with the next chunk of its own prompt, and
  stays in its budget. -/
theorem prefill_exactlyOnce [PrefillCache μ η] (h : PrefillSysRun s) :
    (s.manager.pendingList = s.waiting.map Ticket.pending ∧
      (s.waiting.map Ticket.arrival).Pairwise (· < ·) ∧
      ∃ k, (∀ t ∈ s.waiting.take k, t.extents ≠ []) ∧ ∀ t ∈ s.waiting.drop k, t.extents = []) ∧
    ((s.waiting ++ s.done ++ s.aborted).map Ticket.added).Perm s.added.zipIdx ∧
    (∀ t ∈ s.done, ∃ init last, t.extents = init ++ [last] ∧ (∀ e ∈ init, e.2.2 = true) ∧
      last.2.2 = false ∧ Contiguous t.start t.pending.inputLen t.extents) ∧
    (∀ t ∈ s.waiting ++ s.aborted, t.extents ≠ [] → (∀ e ∈ t.extents, e.2.2 = true) ∧
      ∃ stop < t.pending.inputLen, Contiguous t.start stop t.extents) ∧
    s.published.Perm ((s.waiting ++ s.done ++ s.aborted).filterMap Ticket.admission) ∧
    ∀ inflightTokens prefillBudget tic pm b,
      s.manager.scheduleNextBatch inflightTokens prefillBudget tic = some (pm, some b) →
      b.reqs.length ≤ s.waiting.length ∧
        (∀ x ∈ s.waiting.zip b.reqs, x.1.pending.IsChunk (x.1.pending.nextStart x.2) x.2) ∧
        extendLens b.reqs ≤ prefillBudget := by
  have hinv := h.inv
  refine ⟨⟨hinv.pending, hinv.sorted, exists_admitted hinv.admittedFirst⟩, hinv.all, hinv.done, ?_,
    hinv.published, ?_⟩
  · intro t ht hne
    have hwait : t.Waiting := by
      rcases List.mem_append.mp ht with ht | ht
      · exact hinv.waiting t ht
      · exact hinv.aborted t ht
    unfold Ticket.Waiting at hwait
    -- a ticket with chunks holds the last of them
    cases hc : t.pending.chunkedReq with
    | none =>
      rw [hc] at hwait
      exact absurd hwait hne
    | some c =>
      rw [hc] at hwait
      exact ⟨hwait.2.2.2, c.cachedLen, hwait.2.2.1, hwait.2.1⟩
  · intro inflightTokens prefillBudget tic pm b hb
    obtain ⟨hlen, hchunks, -, -, hbudget⟩ := scheduleNextBatch_spec hb
    rw [hinv.pending] at hlen hchunks
    rw [length_map] at hlen
    refine ⟨hlen, fun x hx => hchunks (x.1.pending, x.2) ?_, hbudget⟩
    rw [zip_map_left]
    exact List.mem_map.mpr ⟨x, hx, rfl⟩

end run

def fivePrompt : PendingReq RadixCacheHandle :=
  { uid := 7, inputIds := [1, 2, 3, 4, 5], outputLen := 2 }

/-- A prompt of five tokens in passes of three. -/
theorem prefill_exactlyOnce_run : ∃ s : PrefillSys CacheManager RadixCacheHandle Unit,
    PrefillSysRun s ∧ s.waiting = [] ∧ s.done.map Ticket.extents = [[(0, 3, true), (3, 5, false)]] ∧
      s.published.Perm [(7, 5, 0)] := by
  have h₁ := (PrefillSysRun.init (CacheManager.init 1 8 (fun _ _ => 0) .naive) (.init 2)
    (none : Option (EncoderCache Unit)) false).addOneReq _ fivePrompt rfl
  have h₂ := h₁.pass _ 0 3 (fun _ => 0) _ _ rfl
  have h₃ := h₂.pass _ 0 3 (fun _ => 0) _ _ rfl
  exact ⟨_, h₃, rfl, rfl, (prefill_exactlyOnce h₃).2.2.2.2.1⟩
end FreeToken
