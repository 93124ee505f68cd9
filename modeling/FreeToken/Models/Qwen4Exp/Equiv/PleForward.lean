import FreeToken.Models.Qwen4Exp.Equiv.PleWorld

/-!
# Behind a forward

* `copySlots_spec`, `indexPut_get`: what a forward writes to the slots.
* `PleInv.forward`: a forward keeps what holds in every state, when it does so for the requests of
  its batch.
* `PrefillDone`: a request behind its prefill.
-/

namespace FreeToken

open Function List

namespace Ple

variable {e : NGramEmbedding} {d : DiskRowTable} {padSlot : ℕ} {w : PleWorld} {uid : ℕ}
  {r r' : PleReq}

/-! ### Slots of a batch -/

theorem PleInv.nodup_slots (h : PleInv e padSlot w) {α : Type} {xs : List α} {uidOf : α → ℕ}
    (reqOf : α → PleReq)
    (hreq : ∀ x ∈ xs, w.reqs (uidOf x) = some (reqOf x)) (hnodup : (xs.map uidOf).Nodup)
    {f : α → Option ℕ}
    (hf : ∀ x ∈ xs, ∀ slot, f x = some slot → slot ∈ (reqOf x).slots) : (xs.filterMap f).Nodup := by
  induction xs with
  | nil => exact nodup_nil
  | cons x xs ih =>
    rw [map_cons, nodup_cons] at hnodup
    have hrest := ih (fun y hy => hreq y (mem_cons_of_mem _ hy)) hnodup.2 fun y hy =>
      hf y (mem_cons_of_mem _ hy)
    rw [filterMap_cons]
    cases hx : f x with
    | none => exact hrest
    | some slot =>
      refine nodup_cons.mpr ⟨fun hmem => ?_, hrest⟩
      obtain ⟨y, hy, hslot⟩ := mem_filterMap.mp hmem
      have hne : uidOf x ≠ uidOf y := fun heq => hnodup.1 (heq ▸ mem_map_of_mem hy)
      exact h.apart _ _ _ _ (hreq x mem_cons_self) (hreq y (mem_cons_of_mem _ hy)) hne
        (hf x mem_cons_self slot hx) (hf y (mem_cons_of_mem _ hy) slot hslot)

theorem copySlots_spec (pairs : List (ℕ × ℕ)) (hnodup : (pairs.map Prod.snd).Nodup)
    (hsrc : ∀ p ∈ pairs, p.1 ∉ pairs.map Prod.snd) (pool : ContextPool) :
    (∀ p ∈ pairs, copySlots pool pairs p.2 = pool p.1) ∧
      ∀ slot, slot ∉ pairs.map Prod.snd → copySlots pool pairs slot = pool slot := by
  unfold copySlots
  induction pairs generalizing pool with
  | nil => exact ⟨fun p hp => absurd hp not_mem_nil, fun _ _ => rfl⟩
  | cons q pairs ih =>
    rw [map_cons, nodup_cons] at hnodup
    have hsrc' : ∀ p ∈ q :: pairs, p.1 ≠ q.2 ∧ p.1 ∉ pairs.map Prod.snd := fun p hp => by
      have hnot := hsrc p hp
      rw [map_cons, mem_cons, not_or] at hnot
      exact hnot
    obtain ⟨hcopy, hkeep⟩ := ih hnodup.2 (fun p hp => (hsrc' p (mem_cons_of_mem _ hp)).2)
      (update pool q.2 (pool q.1))
    rw [foldl_cons]
    refine ⟨fun p hp => ?_, fun slot hslot => ?_⟩
    · rcases mem_cons.mp hp with rfl | hp'
      · rw [hkeep _ hnodup.1, update_self]
      · rw [hcopy p hp', update_of_ne (hsrc' p hp).1]
    · rw [map_cons, mem_cons, not_or] at hslot
      rw [hkeep slot hslot.2, update_of_ne hslot.1]

theorem indexPut_get {t : ContextPool} {is : List ℕ} {vs : List (List (BitVec 32))}
    (hnodup : is.Nodup)
    (hlen : is.length = vs.length) {k i : ℕ} {v : List (BitVec 32)} (hi : is[k]? = some i)
    (hv : vs[k]? = some v) :
    indexPut t is vs i = v := by
  have hmap := map_indexPut (t := t) hnodup hlen
  have hget := congrArg (fun xs => xs[k]?) hmap
  rw [getElem?_map, hi, hv] at hget
  exact Option.some.inj hget

theorem copySlots_width {n : ℕ} {pool : ContextPool} (hwidth : ∀ slot, (pool slot).length = n)
    (pairs : List (ℕ × ℕ)) :
    ∀ slot, (copySlots pool pairs slot).length = n := by
  unfold copySlots
  induction pairs generalizing pool with
  | nil => exact hwidth
  | cons p pairs ih =>
    rw [foldl_cons]
    refine ih fun slot => ?_
    by_cases heq : slot = p.2
    · rw [heq, update_self, hwidth]
    · rw [update_of_ne heq, hwidth]

theorem indexPut_width {n : ℕ} {pool : ContextPool} (hwidth : ∀ slot, (pool slot).length = n)
    {is : List ℕ}
    {vs : List (List (BitVec 32))} (hlen : is.length = vs.length) (hvs : ∀ v ∈ vs, v.length = n)
    (slot : ℕ) :
    (indexPut pool is vs slot).length = n := by
  by_cases hmem : slot ∈ is
  · exact hvs _ (indexPut_mem hlen hmem)
  · rw [indexPut_of_notMem hmem, hwidth]

/-! ### A forward -/

section Forward

variable {α : Type} {batch : List α} {uidOf : α → ℕ} {doneOf : α → PleReq}
  {sampled : α → Option (BitVec 32)} {pool : ContextPool}

/-- The world behind a forward, for the requests of a batch. -/
def PleWorld.forward (w : PleWorld) (batch : List α) (uidOf : α → ℕ) (doneOf : α → PleReq)
    (sampled : α → Option (BitVec 32)) (pool : ContextPool) : PleWorld where
  reqs uid := (batch.find? fun x => uidOf x == uid).elim (w.reqs uid) fun x => some (doneOf x)
  snapshots := w.snapshots
  contextPool := pool
  pending := w.pending ++ [batch.map fun x => (uidOf x, sampled x)]

theorem forward_reqs_of_notMem (h : uid ∉ batch.map uidOf) :
    (w.forward batch uidOf doneOf sampled pool).reqs uid = w.reqs uid := by
  have hnone : batch.find? (fun x => uidOf x == uid) = none := by
    refine find?_eq_none.mpr fun x hx heq => h ?_
    rw [← beq_iff_eq.mp heq]
    exact mem_map_of_mem hx
  unfold PleWorld.forward
  dsimp only
  rw [hnone, Option.elim_none]

theorem forward_reqs_of_mem (w : PleWorld) (doneOf : α → PleReq) (sampled : α → Option (BitVec 32))
    (pool : ContextPool) (h : uid ∈ batch.map uidOf) :
    ∃ x ∈ batch, uidOf x = uid ∧ (w.forward batch uidOf doneOf sampled pool).reqs uid =
      some (doneOf x) := by
  unfold PleWorld.forward
  dsimp only
  cases hfind : batch.find? (fun x => uidOf x == uid) with
  | none =>
    obtain ⟨x, hx, heq⟩ := mem_map.mp h
    exact absurd (beq_iff_eq.mpr heq) (find?_eq_none.mp hfind x hx)
  | some x =>
    have heq : (uidOf x == uid) = true := find?_some (p := fun x => uidOf x == uid) hfind
    exact ⟨x, mem_of_find?_eq_some hfind, beq_iff_eq.mp heq, rfl⟩

theorem forward_tokensOf_of_notMem (h : uid ∉ batch.map uidOf) :
    (w.forward batch uidOf doneOf sampled pool).tokensOf uid = w.tokensOf uid := by
  have hnone :
      (batch.map fun x => (uidOf x, sampled x)).filterMap
      (fun x => if x.1 = uid then x.2 else none) = [] := by
    rw [filterMap_map]
    refine filterMap_eq_nil_iff.mpr fun x hx => ?_
    have hne : uidOf x ≠ uid := fun heq => h (heq ▸ mem_map_of_mem hx)
    rw [comp_apply, if_neg hne]
  unfold PleWorld.tokensOf PleWorld.forward
  rw [flatten_append, flatten_singleton, filterMap_append, hnone, append_nil]

theorem forward_tokensOf_of_mem (w : PleWorld) (doneOf : α → PleReq)
    (sampled : α → Option (BitVec 32)) (pool : ContextPool)
    (hnodup : (batch.map uidOf).Nodup) {x : α} (hx : x ∈ batch) :
    (w.forward batch uidOf doneOf sampled pool).tokensOf (uidOf x) = w.tokensOf (uidOf x) ++
    (sampled x).toList := by
  obtain ⟨front, behind, rfl⟩ := append_of_mem hx
  rw [map_append, map_cons, nodup_append, nodup_cons] at hnodup
  have hnone : ∀ xs : List α, (∀ y ∈ xs, uidOf y ≠ uidOf x) →
      (xs.map fun x => (uidOf x, sampled x)).filterMap
        (fun y => if y.1 = uidOf x then y.2 else none) = [] := by
    intro xs hxs
    rw [filterMap_map]
    refine filterMap_eq_nil_iff.mpr fun y hy => ?_
    rw [comp_apply, if_neg (hxs y hy)]
  unfold PleWorld.tokensOf PleWorld.forward
  rw [flatten_append, flatten_singleton, filterMap_append, map_append, map_cons, filterMap_append,
    filterMap_cons, if_pos rfl, hnone front fun y hy => hnodup.2.2 _ (mem_map_of_mem hy) _
    mem_cons_self, hnone behind fun y hy heq => hnodup.2.1.1 (heq ▸ mem_map_of_mem hy)]
  cases sampled x <;> rfl

theorem forward_countOf_of_notMem (h : uid ∉ batch.map uidOf) :
    (w.forward batch uidOf doneOf sampled pool).countOf uid = w.countOf uid := by
  unfold PleWorld.countOf PleWorld.forward
  rw [flatten_append, flatten_singleton, map_append, count_append, map_map]
  exact congrArg _ (count_eq_zero.mpr h)

/-- **A forward** keeps what holds in every state, when it does so for its own requests. -/
theorem PleInv.forward (h : PleInv e padSlot w) (reqOf : α → PleReq)
    (hpending : w.pending.length ≤ 1) (hnodup : (batch.map uidOf).Nodup)
    (hreq : ∀ x ∈ batch, w.reqs (uidOf x) = some (reqOf x))
    (hslots : ∀ x ∈ batch, (doneOf x).slots = (reqOf x).slots)
    (hwidth : ∀ slot, (pool slot).length = e.args.ngramSize - 1)
    (hkeep : ∀ slot, slot ≠ padSlot → (∀ x ∈ batch, slot ∉ (reqOf x).slots) →
      pool slot = w.contextPool slot)
    (hok : ∀ x ∈ batch, ReqOk e (w.forward batch uidOf doneOf sampled pool) (uidOf x) (doneOf x)) :
    PleInv e padSlot (w.forward batch uidOf doneOf sampled pool) := by
  -- a forward changes no slots
  have hslotsOf : ∀ {uid r}, (w.forward batch uidOf doneOf sampled pool).reqs uid = some r →
      ∃ r', w.reqs uid = some r' ∧ r.slots = r'.slots := by
    intro uid r hr
    by_cases hmem : uid ∈ batch.map uidOf
    · obtain ⟨x, hx, rfl, hdone⟩ := forward_reqs_of_mem w doneOf sampled pool hmem
      obtain rfl := Option.some.inj (hdone.symm.trans hr)
      exact ⟨reqOf x, hreq x hx, hslots x hx⟩
    · rw [forward_reqs_of_notMem hmem] at hr
      exact ⟨r, hr, rfl⟩
  refine ⟨hwidth, ?_, fun b hb => ?_, fun uid r hr => ?_, fun uid uid' r r' hr hr' hne =>
    ?_, fun x hx => ?_, fun uid r hr => ?_⟩
  · show (w.pending ++ [_]).length ≤ 2
    rw [length_append, length_singleton]
    exact Nat.succ_le_succ hpending
  · rcases mem_append.mp hb with hb | hb
    · exact h.pending_nodup b hb
    · rw [mem_singleton.mp hb, map_map]
      exact hnodup
  · obtain ⟨r', hr', heq⟩ := hslotsOf hr
    rw [heq]
    exact h.own uid r' hr'
  · obtain ⟨r1, hr1, heq1⟩ := hslotsOf hr
    obtain ⟨r2, hr2, heq2⟩ := hslotsOf hr'
    rw [heq1, heq2]
    exact h.apart uid uid' r1 r2 hr1 hr2 hne
  -- no request of the batch has the slot of a snapshot
  · obtain ⟨hpad, hwindow⟩ := h.snapshots x hx
    refine ⟨hpad, ?_⟩
    rw [← hwindow]
    exact hkeep x.1 hpad fun y hy hmem => (h.own _ _ (hreq y hy)).2 _ hmem |>.2 x hx rfl
  · by_cases hmem : uid ∈ batch.map uidOf
    · obtain ⟨x, hx, rfl, hdone⟩ := forward_reqs_of_mem w doneOf sampled pool hmem
      obtain rfl := Option.some.inj (hdone.symm.trans hr)
      exact hok x hx
    · rw [forward_reqs_of_notMem hmem] at hr
      refine (h.reqs uid r hr).frame (forward_tokensOf_of_notMem hmem)
        (forward_countOf_of_notMem hmem).le
        (fun slot hslot => hkeep slot ((h.own uid r hr).2 slot hslot).1 fun x hx hslot' => ?_)
        fun _ hx _ => hx
      exact h.apart _ _ _ _ hr (hreq x hx) (fun heq => hmem (heq ▸ mem_map_of_mem hx)) hslot hslot'

end Forward

/-! ### Requests behind a forward -/

theorem writeRow_of_lt {row : ℕ → BitVec 32} {start i : ℕ} {toks : List (BitVec 32)}
    (h : i < start) :
    writeRow row start toks i = row i := by
  unfold writeRow
  rw [if_neg fun hin => absurd hin.1 (not_le.mpr h)]

theorem writeRow_of_get {row : ℕ → BitVec 32} {start i : ℕ} {toks : List (BitVec 32)}
    {t : BitVec 32} (hle : start ≤ i)
    (h : toks[i - start]? = some t) : writeRow row start toks i = t := by
  have hlt := (List.getElem?_eq_some_iff.mp h).1
  unfold writeRow
  rw [if_pos ⟨hle, by omega⟩, getD_eq_getElem?_getD, h, Option.getD_some]

theorem track_fields :
    r.track.prompt = r.prompt ∧ r.track.inputIds = r.inputIds ∧ r.track.tokenPool = r.tokenPool ∧
    r.track.cachedLen = r.cachedLen ∧ r.track.deviceLen = r.deviceLen ∧
      r.track.maxDeviceLen = r.maxDeviceLen ∧
    r.track.linearSlot = r.linearSlot ∧ r.track.pingPong = r.pingPong ∧
      r.track.aborted = r.aborted := by
  unfold PleReq.track
  split_ifs
  · exact ⟨rfl, rfl, rfl, rfl, rfl, rfl, rfl, rfl, rfl⟩
  · exact ⟨rfl, rfl, rfl, rfl, rfl, rfl, rfl, rfl, rfl⟩

theorem completeOne_eq (r r' : PleReq) (sampled : Bool) (t : BitVec 32)
    (h : r' = if sampled then (r.writeToken t).completeOne else r.completeOne) :
    r' = { r with tokenPool := r'.tokenPool, cachedLen := r.deviceLen, deviceLen := r.deviceLen +
      1 } ∧
      (∀ i < r.deviceLen, r'.tokenPool i = r.tokenPool i) ∧
      (sampled = true → r.deviceLen < r.maxDeviceLen → r'.tokenPool r.deviceLen = t) := by
  subst h
  cases sampled with
  | false =>
    rw [if_neg Bool.false_ne_true]
    exact ⟨rfl, fun _ _ => rfl, fun h => absurd h Bool.false_ne_true⟩
  | true =>
    rw [if_pos rfl]
    unfold PleReq.writeToken
    split_ifs with hlt
    · exact ⟨rfl, fun i hi => writeRow_of_lt hi, fun _ _ =>
        writeRow_of_get (le_refl _) (by rw [Nat.sub_self]; rfl)⟩
    · exact ⟨rfl, fun _ _ => rfl, fun _ h => absurd h hlt⟩

variable {x : PrefillEntry}

/-- A request of a prefill batch, behind the forward. -/
structure PrefillDone (x : PrefillEntry) : Prop where
  prompt : x.done.prompt = x.req.prompt
  inputIds : x.done.inputIds = x.req.prompt.take (x.req.cachedLen + x.len)
  known : ∀ i < x.req.cachedLen + x.len, x.done.tokenPool i = x.started.tokenPool i
  token : x.isLast = true → x.req.cachedLen + x.len < x.req.maxDeviceLen →
    x.done.tokenPool (x.req.cachedLen + x.len) = x.token
  cachedLen : x.done.cachedLen = x.req.cachedLen + x.len
  deviceLen : x.done.deviceLen = x.req.cachedLen + x.len + 1
  maxDeviceLen : x.done.maxDeviceLen = x.req.maxDeviceLen
  linearSlot : x.done.linearSlot = x.req.linearSlot
  pingPong : x.done.pingPong = x.req.pingPong
  nextTrack : x.done.nextTrack = x.started.track.nextTrack
  lastTrack : x.done.lastTrack = x.started.track.lastTrack
  restoreSrc : x.done.restoreSrc = none
  aborted : x.done.aborted = x.req.aborted

theorem prefillDone (x : PrefillEntry) : PrefillDone x := by
  obtain ⟨hprompt, hids, hpool, -, hdevice, hmax, hslot, hpair, haborted⟩ :=
    track_fields (r := x.started)
  obtain ⟨hdone, hknown, htoken⟩ :=
    completeOne_eq { x.started.track with restoreSrc := none } x.done x.isLast x.token rfl
  have hlen : x.started.track.deviceLen = x.req.cachedLen + x.len := hdevice
  dsimp only at hdone hknown htoken
  refine ⟨?_, ?_, fun i hi => ?_, fun hlast hlt => ?_, ?_, ?_, ?_, ?_, ?_, ?_, ?_, ?_, ?_⟩
  · exact (congrArg PleReq.prompt hdone).trans hprompt
  · exact (congrArg PleReq.inputIds hdone).trans hids
  · exact (hknown i (hlen ▸ hi)).trans (congrFun hpool i)
  · rw [← hlen] at hlt ⊢
    exact htoken hlast (hmax ▸ hlt)
  · exact (congrArg PleReq.cachedLen hdone).trans hlen
  · exact (congrArg PleReq.deviceLen hdone).trans (congrArg (· + 1) hlen)
  · exact (congrArg PleReq.maxDeviceLen hdone).trans hmax
  · exact (congrArg PleReq.linearSlot hdone).trans hslot
  · exact (congrArg PleReq.pingPong hdone).trans hpair
  · rw [hdone]
  · rw [hdone]
  · exact congrArg PleReq.restoreSrc hdone
  · exact (congrArg PleReq.aborted hdone).trans haborted

end Ple

end FreeToken
