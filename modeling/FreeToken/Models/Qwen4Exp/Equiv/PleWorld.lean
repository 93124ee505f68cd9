import FreeToken.Models.Qwen4Exp.Equiv.PleContext

/-!
# What holds while requests run

* `ReqOk`, `PleInv`: the context of a slot is the window of the tokens that its request has run.
* `PleInv.admitted`, …, `PleInv.evict`: the steps of the host.
-/

namespace FreeToken

open Function List Option

variable {pending : List (List (ℕ × Option (BitVec 32)))} {batch : List (ℕ × Option (BitVec 32))}
  {slot : ℕ} {x : ℕ × Option (BitVec 32)} {t : BitVec 32} {second : Bool} {w' : PleWorld}

namespace Ple

variable {e : NGramEmbedding} {d : DiskRowTable} {padSlot : ℕ} {w : PleWorld} {uid : ℕ}
  {r r' : PleReq}

/-- Its tokens in front of a position, as the device has them. -/
def PleReq.seq (r : PleReq) (n : ℕ) : List (BitVec 32) := (range n).map r.tokenPool

/-- The sampled tokens of a request that are not processed. -/
def PleWorld.tokensOf (w : PleWorld) (uid : ℕ) : List (BitVec 32) :=
  w.pending.flatten.filterMap fun x => if x.1 = uid then x.2 else none

/-- How many forwards of a request are not processed. -/
def PleWorld.countOf (w : PleWorld) (uid : ℕ) : ℕ := (w.pending.flatten.map Prod.fst).count uid

/-- Where a request is: its prompt is not prefilled, or it is decoded. -/
inductive ReqPhase (e : NGramEmbedding) (w : PleWorld) (uid : ℕ) (r : PleReq) : Prop where
  | prefill (hids : r.inputIds = r.prompt.take r.cachedLen) (hlt : r.cachedLen < r.prompt.length)
      (htokens : w.tokensOf uid = [])
  | decode (hle : r.prompt.length ≤ r.cachedLen) (hdevice : r.deviceLen = r.cachedLen + 1)
      (hcount : r.inputIds.length + (w.tokensOf uid).length = r.deviceLen)
      (hpending : ∀ j t, (w.tokensOf uid)[j]? = some t → r.inputIds.length + j < r.maxDeviceLen →
        r.tokenPool (r.inputIds.length + j) = t)
      (hsmall : e.args.imageTokenId.isSome → r.cachedLen < r.maxDeviceLen →
        (r.tokenPool r.cachedLen).toInt < mmPadShift)

structure ReqOk (e : NGramEmbedding) (w : PleWorld) (uid : ℕ) (r : PleReq) : Prop where
  prompt_le : 0 < r.prompt.length ∧ r.prompt.length ≤ r.maxDeviceLen
  cached_le : r.cachedLen ≤ r.maxDeviceLen
  known : ∀ i t, r.inputIds[i]? = some t → i < r.maxDeviceLen → r.tokenPool i = t
  phase : ReqPhase e w uid r
  live : r.restoreSrc = none → 0 < r.cachedLen → w.contextPool r.linearSlot =
    windowOf e.args (r.seq r.cachedLen)
  src : ∀ src, r.restoreSrc = some src →
    (src, r.prompt.take r.cachedLen) ∈ w.snapshots ∧ 0 < r.cachedLen ∧ r.deviceLen = r.cachedLen ∧
      w.countOf uid = 0
  frozen : ∀ len, r.lastTrack = some len → len ≤ r.inputIds.length ∧
    ∃ slot, r.trackSlot (!r.nextTrack) = some slot ∧
      w.contextPool slot = windowOf e.args (r.inputIds.take len)
  aborted : r.aborted = true → w.countOf uid ≤ 1

structure PleInv (e : NGramEmbedding) (padSlot : ℕ) (w : PleWorld) : Prop where
  width : ∀ slot, (w.contextPool slot).length = e.args.ngramSize - 1
  pending_le : w.pending.length ≤ 2
  pending_nodup : ∀ batch ∈ w.pending, (batch.map Prod.fst).Nodup
  own : ∀ uid r, w.reqs uid = some r → r.slots.Nodup ∧ ∀ slot ∈ r.slots, slot ≠ padSlot ∧
    ∀ x ∈ w.snapshots, slot ≠ x.1
  apart : ∀ uid uid' r r', w.reqs uid = some r → w.reqs uid' = some r' → uid ≠ uid' →
    r.slots.Disjoint r'.slots
  snapshots : ∀ x ∈ w.snapshots, x.1 ≠ padSlot ∧ w.contextPool x.1 = windowOf e.args x.2
  reqs : ∀ uid r, w.reqs uid = some r → ReqOk e w uid r

/-! ### Slots -/

theorem linearSlot_mem : r.linearSlot ∈ r.slots := mem_cons_self

theorem trackSlot_mem (h : r.trackSlot second = some slot) : slot ∈ r.slots := by
  unfold PleReq.trackSlot at h
  unfold PleReq.slots
  obtain ⟨pair, hpair, rfl⟩ := map_eq_some_iff.mp h
  rw [hpair]
  cases second with
  | true => exact mem_cons_of_mem _ (mem_cons_of_mem _ mem_cons_self)
  | false => exact mem_cons_of_mem _ mem_cons_self

/-- A track slot is not the live one. -/
theorem trackSlot_ne (hnodup : r.slots.Nodup) (h : r.trackSlot second = some slot) :
    slot ≠ r.linearSlot := by
  unfold PleReq.trackSlot at h
  unfold PleReq.slots at hnodup
  obtain ⟨pair, hpair, rfl⟩ := map_eq_some_iff.mp h
  rw [hpair] at hnodup
  have hnot := (nodup_cons.mp hnodup).1
  rintro heq
  refine hnot ?_
  rw [← heq]
  cases second with
  | true => exact mem_cons_of_mem _ mem_cons_self
  | false => exact mem_cons_self

/-! ### Frames -/

theorem ReqOk.frame (h : ReqOk e w uid r) (htokens : w'.tokensOf uid = w.tokensOf uid)
    (hcount : w'.countOf uid ≤ w.countOf uid)
    (hpool : ∀ slot ∈ r.slots, w'.contextPool slot = w.contextPool slot)
    (hsnapshots : ∀ x ∈ w.snapshots, r.restoreSrc = some x.1 → x ∈ w'.snapshots) :
    ReqOk e w' uid r := by
  refine ⟨h.prompt_le, h.cached_le, h.known, ?_, fun hnone hpos => ?_, fun src hsrc =>
    ?_, fun len hlen => ?_, fun haborted => hcount.trans (h.aborted haborted)⟩
  · cases h.phase with
    | prefill hids hlt hnone => exact .prefill hids hlt (htokens.trans hnone)
    | decode hle hdevice hcount hpending hsmall =>
      rw [← htokens] at hcount hpending
      exact .decode hle hdevice hcount hpending hsmall
  · rw [hpool _ linearSlot_mem]
    exact h.live hnone hpos
  · obtain ⟨hmem, hpos, hdevice, hzero⟩ := h.src src hsrc
    exact ⟨hsnapshots _ hmem hsrc, hpos, hdevice, Nat.le_zero.mp (hcount.trans hzero.le)⟩
  · obtain ⟨hle, slot, hslot, hwindow⟩ := h.frozen len hlen
    exact ⟨hle, slot, hslot, by rw [hpool _ (trackSlot_mem hslot), hwindow]⟩

theorem ReqOk.of_reqs (h : ReqOk e w uid r) (reqs : ℕ → Option PleReq) :
    ReqOk e { w with reqs } uid r :=
  h.frame rfl (le_refl _) (fun _ _ => rfl) fun _ hx _ => hx

theorem PleInv.remove (h : PleInv e padSlot w) (uid : ℕ) :
    PleInv e padSlot { w with reqs := update w.reqs uid none } := by
  have hold : ∀ {uid' r}, update w.reqs uid none uid' = some r → w.reqs uid' = some r := by
    intro uid' r hr
    by_cases heq : uid' = uid
    · subst heq
      rw [update_self] at hr
      exact absurd hr.symm (some_ne_none r)
    · rwa [update_of_ne heq] at hr
  exact ⟨h.width, h.pending_le, h.pending_nodup, fun uid' r hr => h.own uid' r (hold hr),
    fun uid1 uid2 r1 r2 hr1 hr2 hne => h.apart uid1 uid2 r1 r2 (hold hr1) (hold hr2) hne,
    h.snapshots, fun uid' r hr => (h.reqs uid' r (hold hr)).of_reqs _⟩

theorem PleInv.set (h : PleInv e padSlot w) (hnodup : r'.slots.Nodup)
    (hslots : ∀ slot ∈ r'.slots, w.Free padSlot slot ∨ ∃ r, w.reqs uid = some r ∧ slot ∈ r.slots)
    (hok : ReqOk e w uid r') :
    PleInv e padSlot { w with reqs := update w.reqs uid (some r') } := by
  have hcases : ∀ {uid1 r1}, update w.reqs uid (some r') uid1 = some r1 →
      uid1 = uid ∧ r1 = r' ∨ uid1 ≠ uid ∧ w.reqs uid1 = some r1 := by
    intro uid1 r1 hr
    by_cases heq : uid1 = uid
    · subst heq
      rw [update_self] at hr
      exact Or.inl ⟨rfl, (Option.some.inj hr).symm⟩
    · rw [update_of_ne heq] at hr
      exact Or.inr ⟨heq, hr⟩
  have hother : ∀ {uid1 r1}, uid1 ≠ uid → w.reqs uid1 = some r1 → r'.slots.Disjoint r1.slots := by
    intro uid1 r1 hne hr1 slot hslot hslot1
    rcases hslots slot hslot with hfree | ⟨r, hr, hmem⟩
    · exact hfree.2.1 uid1 r1 hr1 hslot1
    · exact h.apart uid uid1 r r1 hr hr1 hne.symm hmem hslot1
  refine ⟨h.width, h.pending_le, h.pending_nodup, fun uid1 r1 hr1 => ?_,
    fun uid1 uid2 r1 r2 hr1 hr2 hne => ?_, h.snapshots, fun uid1 r1 hr1 => ?_⟩
  · rcases hcases hr1 with ⟨rfl, rfl⟩ | ⟨hne, hr1⟩
    · refine ⟨hnodup, fun slot hslot => ?_⟩
      rcases hslots slot hslot with hfree | ⟨r, hr, hmem⟩
      · exact ⟨hfree.1, hfree.2.2⟩
      · exact (h.own uid1 r hr).2 slot hmem
    · exact h.own uid1 r1 hr1
  · rcases hcases hr1 with ⟨heq1, rfl⟩ | ⟨hne1, hold1⟩
    · rcases hcases hr2 with ⟨heq2, -⟩ | ⟨hne2, hold2⟩
      · exact absurd (heq1.trans heq2.symm) hne
      · exact hother hne2 hold2
    · rcases hcases hr2 with ⟨heq2, rfl⟩ | ⟨hne2, hold2⟩
      · exact fun slot hslot hslot' => hother hne1 hold1 hslot' hslot
      · exact h.apart uid1 uid2 r1 r2 hold1 hold2 hne
  · rcases hcases hr1 with ⟨rfl, rfl⟩ | ⟨hne, hold⟩
    · exact hok.of_reqs _
    · exact (h.reqs uid1 r1 hold).of_reqs _

theorem PleInv.snapshot (h : PleInv e padSlot w) {key : List (BitVec 32)}
    (hfree : w.Free padSlot slot) (hwindow : w.contextPool slot = windowOf e.args key) :
    PleInv e padSlot { w with snapshots := w.snapshots ++ [(slot, key)] } := by
  refine ⟨h.width, h.pending_le, h.pending_nodup, fun uid r hr => ?_, h.apart, fun x hx =>
    ?_, fun uid r hr => ?_⟩
  · obtain ⟨hnodup, hslots⟩ := h.own uid r hr
    refine ⟨hnodup, fun s hs => ⟨(hslots s hs).1, fun x hx => ?_⟩⟩
    rcases mem_append.mp hx with hx | hx
    · exact (hslots s hs).2 x hx
    · rw [mem_singleton.mp hx]
      rintro rfl
      exact hfree.2.1 uid r hr hs
  · rcases mem_append.mp hx with hx | hx
    · exact h.snapshots x hx
    · rw [mem_singleton.mp hx]
      exact ⟨hfree.1, hwindow⟩
  · exact (h.reqs uid r hr).frame rfl (le_refl _) (fun _ _ => rfl) fun x hx _ =>
      mem_append_left _ hx

/-! ### Pending forwards -/

theorem length_tokensOf_le (w : PleWorld) (uid : ℕ) : (w.tokensOf uid).length ≤ w.countOf uid := by
  unfold PleWorld.tokensOf PleWorld.countOf
  induction w.pending.flatten with
  | nil => exact le_refl _
  | cons x xs ih =>
    rw [filterMap_cons, map_cons, count_cons]
    by_cases hx : x.1 = uid
    · rw [if_pos hx, if_pos (beq_iff_eq.mpr hx)]
      cases x.2 with
      | none => exact ih.trans (Nat.le_succ _)
      | some t => exact Nat.succ_le_succ ih
    · rw [if_neg hx]
      exact ih.trans (Nat.le_add_right _ _)

theorem countOf_le {pending : List (List (ℕ × Option (BitVec 32)))}
    (hnodup : ∀ batch ∈ pending, (batch.map Prod.fst).Nodup) :
    (pending.flatten.map Prod.fst).count uid ≤ pending.length := by
  induction pending with
  | nil => exact le_refl _
  | cons batch pending ih =>
    have hone := nodup_iff_count_le_one.mp (hnodup batch mem_cons_self) uid
    have hrest := ih fun b hb => hnodup b (mem_cons_of_mem _ hb)
    rw [flatten_cons, map_append, count_append, length_cons]
    omega

theorem countOf_settled (h : w.Settled uid) : w.countOf uid = 0 := by
  refine count_eq_zero.mpr fun hmem => ?_
  obtain ⟨x, hx, rfl⟩ := mem_map.mp hmem
  obtain ⟨batch, hbatch, hx⟩ := mem_flatten.mp hx
  exact h batch hbatch x hx rfl

theorem tokensOf_settled (h : w.Settled uid) : w.tokensOf uid = [] := by
  have hle := length_tokensOf_le w uid
  rw [countOf_settled h] at hle
  exact eq_nil_of_length_eq_zero (Nat.le_zero.mp hle)

/-- One entry of a pending forward is processed. -/
structure Popped (w w' : PleWorld) (uid : ℕ) (token : Option (BitVec 32)) : Prop where
  tokens_self : w.tokensOf uid = token.toList ++ w'.tokensOf uid
  tokens_other : ∀ uid', uid' ≠ uid → w'.tokensOf uid' = w.tokensOf uid'
  count_self : w.countOf uid = w'.countOf uid + 1
  count_other : ∀ uid', uid' ≠ uid → w'.countOf uid' = w.countOf uid'
  count_le : w'.countOf uid ≤ 1

theorem PleInv.popped (h : PleInv e padSlot w) (hpending : w.pending = (x :: batch) :: pending) :
    Popped w { w with pending := batch :: pending } x.1 x.2 := by
  have hnodup := h.pending_nodup
  have hle := h.pending_le
  rw [hpending] at hnodup hle
  have hhead := hnodup _ mem_cons_self
  rw [map_cons, nodup_cons] at hhead
  refine ⟨?_, fun uid hne => ?_, ?_, fun uid hne => ?_, ?_⟩
  · unfold PleWorld.tokensOf
    rw [hpending, flatten_cons, cons_append, filterMap_cons, if_pos rfl]
    cases x.2 <;> rfl
  · unfold PleWorld.tokensOf
    rw [hpending, flatten_cons, flatten_cons, cons_append, filterMap_cons, if_neg hne.symm]
  · unfold PleWorld.countOf
    rw [hpending, flatten_cons, flatten_cons, cons_append, map_cons, count_cons_self]
  · unfold PleWorld.countOf
    rw [hpending, flatten_cons, flatten_cons, cons_append, map_cons, count_cons_of_ne hne.symm]
  · have hzero := count_eq_zero.mpr hhead.1
    have hrest := @countOf_le x.1 _ fun b hb => hnodup b (mem_cons_of_mem _ hb)
    rw [length_cons] at hle
    unfold PleWorld.countOf
    rw [flatten_cons, map_append, count_append]
    omega

theorem PleInv.pop (h : PleInv e padSlot w) {x : ℕ × Option (BitVec 32)}
    {batch : List (ℕ × Option (BitVec 32))}
    {pending : List (List (ℕ × Option (BitVec 32)))}
    (hpending : w.pending = (x :: batch) :: pending)
    (hx : ∀ r, w.reqs x.1 = some r → x.2 = none) :
    PleInv e padSlot { w with pending := batch :: pending } := by
  have hpopped := h.popped hpending
  refine ⟨h.width, ?_, fun b hb => ?_, h.own, h.apart, h.snapshots, fun uid r hr => ?_⟩
  · have hle := h.pending_le
    rwa [hpending] at hle
  · have hnodup := h.pending_nodup
    rw [hpending] at hnodup
    rcases mem_cons.mp hb with rfl | hb
    · exact (nodup_cons.mp (hnodup _ mem_cons_self)).2
    · exact hnodup b (mem_cons_of_mem _ hb)
  · by_cases heq : uid = x.1
    · subst heq
      have htokens := hpopped.tokens_self
      rw [hx r hr, toList_none, nil_append] at htokens
      exact (h.reqs _ r hr).frame htokens.symm (by rw [hpopped.count_self]; exact Nat.le_succ _)
        (fun _ _ => rfl) fun _ hx _ => hx
    · exact (h.reqs uid r hr).frame (hpopped.tokens_other uid heq) (hpopped.count_other uid heq).le
        (fun _ _ => rfl) fun _ hx _ => hx

/-! ### Known tokens -/

/-- What the host knows of a request is what the device has. -/
theorem ReqOk.seq_eq (h : ReqOk e w uid r) {n : ℕ} (hn : n ≤ r.inputIds.length)
    (hmax : n ≤ r.maxDeviceLen) :
    r.seq n = r.inputIds.take n := by
  apply ext_getElem?
  intro i
  unfold PleReq.seq
  rw [getElem?_map]
  by_cases hi : i < n
  · rw [getElem?_range hi, map_some, getElem?_take_of_lt hi]
    have hget := getElem?_eq_getElem (hi.trans_le hn)
    rw [hget, h.known i _ hget (hi.trans_le hmax)]
  · rw [getElem?_eq_none (by rw [length_range]; omega), getElem?_take_eq_none (by omega)]
    rfl

theorem ReqOk.appendHost (h : ReqOk e w uid r) (hpopped : Popped w w' uid (some t))
    (hpool : w'.contextPool = w.contextPool) :
    ReqOk e w' uid (r.appendHost t) ∧ (r.appendHost t).cachedLen ≤
      (r.appendHost t).inputIds.length := by
  have htokens := hpopped.tokens_self
  have hcountle := hpopped.count_self
  rw [toList_some, singleton_append] at htokens
  cases h.phase with
  | prefill hids hlt hnone =>
    rw [hnone] at htokens
    exact absurd htokens.symm (cons_ne_nil _ _)
  | decode hle hdevice hcount hpending hsmall =>
    rw [htokens] at hcount hpending
    rw [length_cons] at hcount
    have hlen : (r.appendHost t).inputIds.length = r.inputIds.length + 1 := by
      show (r.inputIds ++ [t]).length = _
      rw [length_append, length_singleton]
    refine ⟨⟨h.prompt_le, h.cached_le, fun i t' hget hi => ?_, ?_, fun hnone hpos =>
      ?_, fun src hsrc => ?_, fun len hlast => ?_, fun haborted => ?_⟩, ?_⟩
    · -- the new id is the first of the pending tokens
      by_cases hlt : i < r.inputIds.length
      · have hget' : r.inputIds[i]? = some t' := by
          rw [← hget]
          exact (getElem?_append_left hlt).symm
        exact h.known i t' hget' hi
      · have hi' : i = r.inputIds.length := by
          have hlt' := (List.getElem?_eq_some_iff.mp hget).1
          omega
        subst hi'
        have ht : t = t' := by
          have hget' : (r.inputIds ++ [t])[r.inputIds.length]? = some t := getElem?_concat_length
          exact Option.some.inj (hget'.symm.trans hget)
        subst ht
        exact hpending 0 t rfl hi
    · -- the other pending tokens move up by one
      refine .decode hle hdevice ?_ (fun j t' hj hlt => ?_) hsmall
      · rw [hlen]
        show r.inputIds.length + 1 + _ = r.deviceLen
        omega
      · rw [hlen] at hlt ⊢
        have hsum : r.inputIds.length + 1 + j = r.inputIds.length + (j + 1) := by omega
        rw [hsum] at hlt ⊢
        exact hpending (j + 1) t' hj hlt
    · rw [hpool]
      exact h.live hnone hpos
    · obtain ⟨-, -, -, hzero⟩ := h.src src hsrc
      omega
    · obtain ⟨hlenle, slot, hslot, hwindow⟩ := h.frozen len hlast
      refine ⟨hlenle.trans (by rw [hlen]; exact Nat.le_succ _), slot, hslot, ?_⟩
      rw [hpool, hwindow]
      show _ = windowOf e.args ((r.inputIds ++ [t]).take len)
      rw [take_append_of_le_length hlenle]
    · have hone := h.aborted haborted
      omega
    · have hle' := length_tokensOf_le w' uid
      have hone := hpopped.count_le
      rw [hlen]
      show r.cachedLen ≤ _
      omega

/-! ### Donations -/

theorem PleInv.snapshots_append {xs : List (ℕ × List (BitVec 32))}
    (hnodup : (xs.map Prod.fst).Nodup)
    (h : PleInv e padSlot w)
    (hxs : ∀ x ∈ xs, w.Free padSlot x.1 ∧ w.contextPool x.1 = windowOf e.args x.2) :
    PleInv e padSlot { w with snapshots := w.snapshots ++ xs } := by
  induction xs generalizing w with
  | nil =>
    rw [append_nil]
    exact h
  | cons x xs ih =>
    rw [map_cons, nodup_cons] at hnodup
    have hx := hxs x mem_cons_self
    have hrest := ih hnodup.2 (h.snapshot hx.1 hx.2) fun y hy => by
      obtain ⟨hfree, hwindow⟩ := hxs y (mem_cons_of_mem _ hy)
      refine ⟨⟨hfree.1, hfree.2.1, fun z hz => ?_⟩, hwindow⟩
      rcases mem_append.mp hz with hz | hz
      · exact hfree.2.2 z hz
      · rw [mem_singleton.mp hz]
        intro heq
        exact hnodup.1 (heq ▸ mem_map_of_mem hy)
    dsimp only at hrest
    rwa [append_assoc] at hrest

theorem ReqOk.donations (h : ReqOk e w uid r) (hnodup : r.slots.Nodup) (hsrc : r.restoreSrc = none)
    (hlen : r.cachedLen ≤ r.inputIds.length) (keepFrozen keepLive : Bool) :
    ((r.donations keepFrozen keepLive).map Prod.fst).Nodup ∧
      ∀ x ∈ r.donations keepFrozen keepLive, x.1 ∈ r.slots ∧
        w.contextPool x.1 = windowOf e.args x.2 := by
  -- the live slot is at the end of the sequence, and the frozen one at the tracked length
  have hlive :
      ∀ x ∈ (if keepLive ∧ 0 < r.cachedLen then [(r.linearSlot, r.inputIds.take r.cachedLen)]
        else []), x.1 = r.linearSlot ∧ w.contextPool x.1 = windowOf e.args x.2 := by
    intro x hx
    split_ifs at hx with hkeep
    · rw [mem_singleton.mp hx]
      refine ⟨rfl, ?_⟩
      rw [h.live hsrc hkeep.2, h.seq_eq hlen h.cached_le]
    · exact absurd hx not_mem_nil
  have hfrozen :
      ∀ x ∈ (if keepFrozen then (r.lastTrack.bind fun len => if 0 < len ∧ len ≤ r.cachedLen then
      (r.trackSlot !r.nextTrack).map fun slot => (slot, r.inputIds.take len) else none).toList
        else []),
      r.trackSlot (!r.nextTrack) = some x.1 ∧ w.contextPool x.1 = windowOf e.args x.2 := by
    intro x hx
    split_ifs at hx with hkeep
    · obtain ⟨len, hlast, hx⟩ := bind_eq_some_iff.mp (mem_toList.mp hx)
      obtain ⟨-, slot, hslot, hwindow⟩ := h.frozen len hlast
      split_ifs at hx with hle
      rw [hslot, map_some, Option.some.injEq] at hx
      subst hx
      exact ⟨hslot, hwindow⟩
    · exact absurd hx not_mem_nil
  unfold PleReq.donations
  refine ⟨?_, fun x hx => ?_⟩
  · rw [map_append]
    refine nodup_append.mpr ⟨?_, ?_, fun a ha b hb => ?_⟩
    · split_ifs
      · cases (r.lastTrack.bind _) <;> simp
      · exact nodup_nil
    · split_ifs
      · exact nodup_singleton _
      · exact nodup_nil
    · obtain ⟨x, hx, rfl⟩ := mem_map.mp ha
      obtain ⟨y, hy, rfl⟩ := mem_map.mp hb
      rw [(hlive y hy).1]
      exact trackSlot_ne hnodup (hfrozen x hx).1
  · rcases mem_append.mp hx with hx | hx
    · exact ⟨trackSlot_mem (hfrozen x hx).1, (hfrozen x hx).2⟩
    · exact ⟨(hlive x hx).1 ▸ linearSlot_mem, (hlive x hx).2⟩

theorem PleInv.free_slots (h : PleInv e padSlot w) (hreq : w.reqs uid = some r)
    (hslot : slot ∈ r.slots) :
    ({ w with reqs := update w.reqs uid none } : PleWorld).Free padSlot slot := by
  obtain ⟨-, hown⟩ := h.own uid r hreq
  refine ⟨(hown slot hslot).1, fun uid' r' hr' hmem => ?_, (hown slot hslot).2⟩
  by_cases heq : uid' = uid
  · subst heq
    dsimp only at hr'
    rw [update_self] at hr'
    exact some_ne_none r' hr'.symm
  · dsimp only at hr'
    rw [update_of_ne heq] at hr'
    exact h.apart uid' uid r' r hr' hreq heq hmem hslot

theorem PleInv.donated (h : PleInv e padSlot w) (hnodup : r.slots.Nodup)
    (hfree : ∀ slot ∈ r.slots, w.Free padSlot slot)
    (hok : ReqOk e w uid r) (hsrc : r.restoreSrc = none) (hlen : r.cachedLen ≤ r.inputIds.length)
    (keepFrozen keepLive : Bool) :
    PleInv e padSlot { w with snapshots := w.snapshots ++ r.donations keepFrozen keepLive } := by
  obtain ⟨hdistinct, hall⟩ := hok.donations hnodup hsrc hlen keepFrozen keepLive
  exact h.snapshots_append hdistinct fun x hx => ⟨hfree _ (hall x hx).1, (hall x hx).2⟩

theorem PleInv.set_same (h : PleInv e padSlot w) (hreq : w.reqs uid = some r)
    (hslots : r'.slots = r.slots)
    (hok : ReqOk e w uid r') : PleInv e padSlot { w with reqs := update w.reqs uid (some r') } :=
  h.set (hslots ▸ (h.own uid r hreq).1) (fun _ hslot => Or.inr ⟨r, hreq, hslots ▸ hslot⟩) hok

/-! ### The steps of the host -/

theorem PleInv.admitted (h : PleInv e padSlot w) {prompt : List (BitVec 32)} {row : ℕ → BitVec 32}
    {maxDeviceLen linearSlot : ℕ} {pingPong : Option (ℕ × ℕ)} {hit : Option (ℕ × List (BitVec 32))}
    (hsettled : w.Settled uid) (hprompt : prompt ≠ []) (hlen : prompt.length ≤ maxDeviceLen)
    (hhit : ∀ x, hit = some x → x ∈ w.snapshots ∧ x.2 <+: prompt ∧ x.2 ≠ [] ∧
      x.2.length < prompt.length) (hr : r = ⟨prompt, prompt.take (hit.elim 0 fun x => x.2.length),
      writeRow row 0 (prompt.take (hit.elim 0 fun x => x.2.length)), hit.elim 0 fun x => x.2.length,
      hit.elim 0 fun x => x.2.length, maxDeviceLen, linearSlot, pingPong, false, none, hit.map
        Prod.fst, false⟩) (hslots : r.slots.Nodup ∧ ∀ slot ∈ r.slots, w.Free padSlot slot) :
    PleInv e padSlot { w with reqs := update w.reqs uid (some r) } := by
  refine h.set hslots.1 (fun slot hslot => Or.inl (hslots.2 slot hslot)) ?_
  have hcached : hit.elim 0 (fun x => x.2.length) < prompt.length := by
    cases hit with
    | none => exact length_pos_of_ne_nil hprompt
    | some x => exact (hhit x rfl).2.2.2
  subst hr
  refine ⟨⟨length_pos_of_ne_nil hprompt, hlen⟩, hcached.le.trans hlen, fun i t hget _ =>
    ?_, .prefill rfl hcached (tokensOf_settled hsettled), fun hnone hpos => ?_, fun src hsrc =>
    ?_, fun len hlast => absurd hlast.symm (some_ne_none len), fun haborted =>
    absurd haborted Bool.false_ne_true⟩
  · dsimp only at hget
    have hlt := (List.getElem?_eq_some_iff.mp hget).1
    show writeRow _ _ _ i = t
    unfold writeRow
    rw [if_pos ⟨Nat.zero_le i, by omega⟩, Nat.sub_zero, getD_eq_getElem?_getD, hget,
      Option.getD_some]
  · cases hit with
    | none => exact absurd hpos (lt_irrefl 0)
    | some x => exact absurd hnone (some_ne_none _)
  · obtain ⟨x, rfl, rfl⟩ := map_eq_some_iff.mp hsrc
    obtain ⟨hmem, hprefix, hne, -⟩ := hhit x rfl
    refine ⟨?_, length_pos_of_ne_nil hne, rfl, countOf_settled hsettled⟩
    show (x.1, prompt.take x.2.length) ∈ w.snapshots
    rw [← prefix_iff_eq_take.mp hprefix]
    exact hmem

theorem PleInv.remove_pop (h : PleInv e padSlot w)
    (hpending : w.pending = (x :: batch) :: pending) :
    PleInv e padSlot { w with reqs := update w.reqs x.1 none, pending := batch :: pending } := by
  refine (h.remove x.1).pop hpending fun r hr => ?_
  dsimp only at hr
  rw [update_self] at hr
  exact absurd hr.symm (some_ne_none r)

theorem PleInv.token (h : PleInv e padSlot w)
    (hpending : w.pending = ((uid, some t) :: batch) :: pending) (hreq : w.reqs uid = some r) :
    PleInv e padSlot
      { w with pending := batch :: pending, reqs := update w.reqs uid (some (r.appendHost t))
        } := by
  have hok := ((h.reqs uid r hreq).appendHost (h.popped hpending) rfl).1
  have hset :=
    (h.remove_pop hpending).set (show (r.appendHost t).slots.Nodup from (h.own uid r hreq).1)
    (fun slot hslot => Or.inl (h.free_slots hreq hslot)) (hok.of_reqs _)
  dsimp only at hset
  rwa [update_idem] at hset

theorem ReqOk.restoreSrc_eq_none (h : ReqOk e w uid r)
    (hstarted : r.deviceLen = r.cachedLen → w.countOf uid ≠ 0) :
    r.restoreSrc = none := by
  cases hsrc : r.restoreSrc with
  | none => rfl
  | some src =>
    obtain ⟨-, -, hdevice, hzero⟩ := h.src src hsrc
    exact absurd hzero (hstarted hdevice)

/-- The host knows all tokens that were run, when at most one forward is not processed. -/
theorem ReqOk.cachedLen_le (h : ReqOk e w uid r) (hcount : w.countOf uid ≤ 1) :
    r.cachedLen ≤ r.inputIds.length := by
  cases h.phase with
  | prefill hids hlt _ =>
    rw [hids, length_take]
    omega
  | decode _ hdevice hlen _ _ =>
    have hle := length_tokensOf_le w uid
    omega

theorem PleInv.finished (h : PleInv e padSlot w)
    (hpending : w.pending = ((uid, some t) :: batch) :: pending)
    (hreq : w.reqs uid = some r) (keepFrozen keepLive : Bool) :
    PleInv e padSlot (({ w with pending := batch :: pending } : PleWorld).free uid (r.appendHost t)
      keepFrozen keepLive) := by
  have hpopped := h.popped hpending
  obtain ⟨hok, hlen⟩ := (h.reqs uid r hreq).appendHost hpopped rfl
  have hsrc := (h.reqs uid r hreq).restoreSrc_eq_none fun _ => by
    rw [hpopped.count_self]
    exact Nat.succ_ne_zero _
  exact (h.remove_pop hpending).donated (r := r.appendHost t) (h.own uid r hreq).1
    (fun slot hslot => h.free_slots hreq hslot) (hok.of_reqs _) hsrc hlen keepFrozen keepLive

theorem PleInv.abortedFree (h : PleInv e padSlot w) (hpending : w.pending = (x :: batch) :: pending)
    (hreq : w.reqs x.1 = some r) (haborted : r.aborted = true) (keepFrozen keepLive : Bool) :
    PleInv e padSlot (({ w with pending := batch :: pending } : PleWorld).free x.1 r keepFrozen
      keepLive) := by
  have hpopped := h.popped hpending
  have hok := h.reqs x.1 r hreq
  have hsrc := hok.restoreSrc_eq_none fun _ => by
    rw [hpopped.count_self]
    exact Nat.succ_ne_zero _
  -- the slots and what is left of them do not depend on what is pending
  obtain ⟨hdistinct, hall⟩ := hok.donations (h.own x.1 r hreq).1 hsrc
    (hok.cachedLen_le (hok.aborted haborted)) keepFrozen keepLive
  exact (h.remove_pop hpending).snapshots_append hdistinct fun y hy =>
    ⟨h.free_slots hreq (hall y hy).1, (hall y hy).2⟩

theorem PleInv.abortedIdle (h : PleInv e padSlot w) (hreq : w.reqs uid = some r)
    (hsettled : w.Settled uid) (hstarted : r.deviceLen ≠ r.cachedLen) (keepFrozen keepLive : Bool) :
    PleInv e padSlot (w.free uid r keepFrozen keepLive) := by
  have hok := h.reqs uid r hreq
  have hsrc := hok.restoreSrc_eq_none fun heq => absurd heq hstarted
  have hcount : w.countOf uid ≤ 1 := by
    rw [countOf_settled hsettled]
    exact Nat.zero_le 1
  exact (h.remove uid).donated (h.own uid r hreq).1 (fun slot hslot => h.free_slots hreq hslot)
    (hok.of_reqs _) hsrc (hok.cachedLen_le hcount) keepFrozen keepLive

/-- The slots of a request that gave a snapshot away: the new one, and the others. -/
theorem mem_slots_donated {frozen s : ℕ} (hnodup : r.slots.Nodup)
    (hfrozen : r.trackSlot (!r.nextTrack) = some frozen)
    (hr : r' = { r with
      lastTrack := none
      pingPong :=
        r.pingPong.map fun pair => if r.nextTrack then (slot, pair.2) else (pair.1, slot) })
    (hs : s ∈ r'.slots) : s = slot ∨ s ∈ r.slots ∧ s ≠ frozen := by
  have hlive := trackSlot_ne hnodup hfrozen
  obtain ⟨pair, hpair, hpick⟩ := map_eq_some_iff.mp hfrozen
  have hne : pair.1 ≠ pair.2 := by
    unfold PleReq.slots at hnodup
    rw [hpair] at hnodup
    exact fun heq => (nodup_cons.mp (nodup_cons.mp hnodup).2).1 (mem_singleton.mpr heq)
  subst hr
  unfold PleReq.slots at hs ⊢
  dsimp only at hs
  rw [hpair] at hs ⊢
  -- the frozen slot is the one that the next snapshot does not go to
  cases hnext : r.nextTrack with
  | true =>
    rw [hnext] at hs hpick
    have hpick' : pair.1 = frozen := hpick
    rcases mem_cons.mp hs with rfl | hs
    · exact Or.inr ⟨mem_cons_self, hlive.symm⟩
    · rcases mem_cons.mp hs with hs | hs
      · exact Or.inl hs
      · rw [mem_singleton.mp hs]
        exact Or.inr ⟨mem_cons_of_mem _ (mem_cons_of_mem _ mem_cons_self), hpick' ▸ hne.symm⟩
  | false =>
    rw [hnext] at hs hpick
    have hpick' : pair.2 = frozen := hpick
    rcases mem_cons.mp hs with rfl | hs
    · exact Or.inr ⟨mem_cons_self, hlive.symm⟩
    · rcases mem_cons.mp hs with hs | hs
      · rw [hs]
        exact Or.inr ⟨mem_cons_of_mem _ mem_cons_self, hpick' ▸ hne⟩
      · exact Or.inl (mem_singleton.mp hs)

/-- A new slot in the place of a snapshot leaves the slots of a request distinct. -/
theorem nodup_slots_donated (hnodup : r.slots.Nodup) (hnew : slot ∉ r.slots)
    (hr : r' = { r with
      lastTrack := none
      pingPong :=
        r.pingPong.map fun pair => if r.nextTrack then (slot, pair.2) else (pair.1, slot) }) :
    r'.slots.Nodup := by
  subst hr
  unfold PleReq.slots at hnodup hnew ⊢
  cases hpair : r.pingPong with
  | none => exact nodup_singleton _
  | some pair =>
    rw [hpair] at hnodup hnew
    have hlive : r.linearSlot ∉ [pair.1, pair.2] := (nodup_cons.mp hnodup).1
    have hnew' : slot ∉ [r.linearSlot, pair.1, pair.2] := hnew
    rw [mem_cons, mem_cons, mem_singleton, not_or, not_or] at hnew'
    rw [mem_cons, mem_singleton, not_or] at hlive
    cases r.nextTrack with
    | true =>
      show [r.linearSlot, slot, pair.2].Nodup
      rw [nodup_cons, nodup_cons, mem_cons, mem_singleton, mem_singleton, not_or]
      exact ⟨⟨fun heq => hnew'.1 heq.symm, hlive.2⟩, hnew'.2.2, nodup_singleton _⟩
    | false =>
      show [r.linearSlot, pair.1, slot].Nodup
      rw [nodup_cons, nodup_cons, mem_cons, mem_singleton, mem_singleton, not_or]
      exact ⟨⟨hlive.1, fun heq => hnew'.1 heq.symm⟩, fun heq => hnew'.2.1 heq.symm, nodup_singleton
        _⟩

theorem PleWorld.Free.of_remove (h : w.Free padSlot slot) :
    ({ w with reqs := update w.reqs uid none } : PleWorld).Free padSlot slot := by
  refine ⟨h.1, fun uid' r1 hr1 => ?_, h.2.2⟩
  by_cases heq : uid' = uid
  · subst heq
    dsimp only at hr1
    rw [update_self] at hr1
    exact absurd hr1.symm (some_ne_none r1)
  · dsimp only at hr1
    rw [update_of_ne heq] at hr1
    exact h.2.1 uid' r1 hr1

theorem PleInv.donate (h : PleInv e padSlot w) {len frozen : ℕ} (hreq : w.reqs uid = some r)
    (hlast : r.lastTrack = some len) (hfrozen : r.trackSlot (!r.nextTrack) = some frozen)
    (hslot : w.Free padSlot slot) (hr : r' = { r with
      lastTrack := none
      pingPong :=
        r.pingPong.map fun pair => if r.nextTrack then (slot, pair.2) else (pair.1, slot) }) :
    PleInv e padSlot { w with
      reqs := update w.reqs uid (some r')
      snapshots := w.snapshots ++ [(frozen, r.inputIds.take len)] } := by
  have hok := h.reqs uid r hreq
  obtain ⟨hnodup, -⟩ := h.own uid r hreq
  obtain ⟨-, frozen', hfrozen', hwindow⟩ := hok.frozen len hlast
  obtain rfl := Option.some.inj (hfrozen.symm.trans hfrozen')
  -- the snapshot is added while the request is away, and the request comes back with its new slots
  have hsnapshot := (h.remove uid).snapshot (h.free_slots hreq (trackSlot_mem hfrozen)) hwindow
  have hnew : slot ∉ r.slots := fun hmem => hslot.2.1 uid r hreq hmem
  have hnodup' := nodup_slots_donated hnodup hnew hr
  have hok' : ReqOk e w uid r' := by
    subst hr
    refine ⟨hok.prompt_le, hok.cached_le, hok.known, ?_, hok.live, hok.src,
      fun len hlast => absurd hlast.symm (some_ne_none len), hok.aborted⟩
    cases hok.phase with
    | prefill hids hlt hnone => exact .prefill hids hlt hnone
    | decode hle hdevice hcount hpending hsmall => exact .decode hle hdevice hcount hpending hsmall
  have hset := @PleInv.set _ _ _ uid _ hsnapshot hnodup' (fun s hs => Or.inl ?_) <|
    hok'.frame rfl (le_refl _) (fun _ _ => rfl) fun x hx _ => mem_append_left _ hx
  · dsimp only at hset
    rwa [update_idem] at hset
  · have hfree :
      ({ w with reqs := update w.reqs uid none } : PleWorld).Free padSlot s ∧ s ≠ frozen := by
      rcases mem_slots_donated hnodup hfrozen hr hs with rfl | ⟨hs, hne⟩
      · exact ⟨hslot.of_remove, fun heq => hnew (heq ▸ trackSlot_mem hfrozen)⟩
      · exact ⟨h.free_slots hreq hs, hne⟩
    refine ⟨hfree.1.1, hfree.1.2.1, fun x hx => ?_⟩
    rcases mem_append.mp hx with hx | hx
    · exact hfree.1.2.2 x hx
    · rw [mem_singleton.mp hx]
      exact hfree.2

theorem PleInv.mark (h : PleInv e padSlot w) (hreq : w.reqs uid = some r) {lastTrack : Option ℕ}
    {aborted : Bool}
    (hlast : lastTrack = none ∨ lastTrack = r.lastTrack)
    (haborted : aborted = true → w.countOf uid ≤ 1) :
    PleInv e padSlot { w with reqs := update w.reqs uid (some { r with lastTrack, aborted }) } := by
  have hok := h.reqs uid r hreq
  refine h.set_same hreq rfl ⟨hok.prompt_le, hok.cached_le, hok.known, ?_, hok.live,
    hok.src, fun len hlen => ?_, haborted⟩
  · cases hok.phase with
    | prefill hids hlt hnone => exact .prefill hids hlt hnone
    | decode hle hdevice hcount hpending hsmall => exact .decode hle hdevice hcount hpending hsmall
  · rcases hlast with rfl | rfl
    · exact absurd hlen.symm (some_ne_none len)
    · exact hok.frozen len hlen

theorem PleInv.evict (h : PleInv e padSlot w) {before after : List (ℕ × List (BitVec 32))}
    {x : ℕ × List (BitVec 32)}
    (hsnapshots : w.snapshots = before ++ x :: after)
    (hfree : ∀ uid r, w.reqs uid = some r → r.restoreSrc ≠ some x.1) :
    PleInv e padSlot { w with snapshots := before ++ after } := by
  have hsub : ∀ y ∈ before ++ after, y ∈ w.snapshots := by
    intro y hy
    rw [hsnapshots]
    rcases mem_append.mp hy with hy | hy
    · exact mem_append_left _ hy
    · exact mem_append_right _ (mem_cons_of_mem _ hy)
  refine ⟨h.width, h.pending_le, h.pending_nodup, fun uid r hr => ?_, h.apart, fun y hy =>
    h.snapshots y (hsub y hy), fun uid r hr => ?_⟩
  · obtain ⟨hnodup, hown⟩ := h.own uid r hr
    exact ⟨hnodup, fun slot hslot =>
      ⟨(hown slot hslot).1, fun y hy => (hown slot hslot).2 y (hsub y hy)⟩⟩
  · refine (h.reqs uid r hr).frame rfl (le_refl _) (fun _ _ => rfl) fun y hy hsrc => ?_
    rw [hsnapshots] at hy
    rcases mem_append.mp hy with hy | hy
    · exact mem_append_left _ hy
    · rcases mem_cons.mp hy with rfl | hy
      · exact absurd hsrc (hfree uid r hr)
      · exact mem_append_right _ hy

end Ple

end FreeToken
