import FreeToken.Models.Qwen4Exp.Equiv.PleForward

/-!
# A decode keeps the contexts

* `PleInv.decodes`: the runs of a decode batch, with its padding behind them.
* `PleInv.decode`: the live slot of every request has moved on by its token, and an anchor is a
  copy from before.
-/

namespace FreeToken

open List

namespace Ple

variable {e : NGramEmbedding} {d : DiskRowTable} {padSlot : ℕ} {w : PleWorld}
  {batch : List DecodeEntry} {pads : List BatchReq} {x : DecodeEntry} {uid : ℕ} {r : PleReq}

/-- A request of a decode batch, behind the forward. -/
structure DecodeDone (x : DecodeEntry) : Prop where
  prompt : x.done.prompt = x.req.prompt
  inputIds : x.done.inputIds = x.req.inputIds
  known : ∀ i < x.req.deviceLen, x.done.tokenPool i = x.req.tokenPool i
  token : x.req.deviceLen < x.req.maxDeviceLen → x.done.tokenPool x.req.deviceLen = x.token
  cachedLen : x.done.cachedLen = x.req.deviceLen
  deviceLen : x.done.deviceLen = x.req.deviceLen + 1
  maxDeviceLen : x.done.maxDeviceLen = x.req.maxDeviceLen
  linearSlot : x.done.linearSlot = x.req.linearSlot
  pingPong : x.done.pingPong = x.req.pingPong
  nextTrack : x.done.nextTrack = if x.anchor then !x.req.nextTrack else x.req.nextTrack
  lastTrack : x.done.lastTrack = if x.anchor then some x.req.cachedLen else x.req.lastTrack
  restoreSrc : x.done.restoreSrc = x.req.restoreSrc
  aborted : x.done.aborted = x.req.aborted

theorem decodeDone (x : DecodeEntry) : DecodeDone x := by
  have hframe : ∀ r, r = x.req ∨ r = x.req.freeze → x.done = (r.writeToken x.token).completeOne →
      (r.nextTrack = if x.anchor then !x.req.nextTrack else x.req.nextTrack) →
      (r.lastTrack = if x.anchor then some x.req.cachedLen else x.req.lastTrack) →
        DecodeDone x := by
    intro r hr hdone hnext hlast
    obtain ⟨heq, hknown, htoken⟩ := completeOne_eq r x.done true x.token hdone
    have hsame :
        r.prompt = x.req.prompt ∧ r.inputIds = x.req.inputIds ∧ r.tokenPool = x.req.tokenPool ∧
        r.deviceLen = x.req.deviceLen ∧ r.maxDeviceLen = x.req.maxDeviceLen ∧
          r.linearSlot = x.req.linearSlot ∧
        r.pingPong = x.req.pingPong ∧ r.restoreSrc = x.req.restoreSrc ∧
          r.aborted = x.req.aborted := by
      rcases hr with rfl | rfl
      · exact ⟨rfl, rfl, rfl, rfl, rfl, rfl, rfl, rfl, rfl⟩
      · exact ⟨rfl, rfl, rfl, rfl, rfl, rfl, rfl, rfl, rfl⟩
    obtain ⟨hprompt, hids, hpool, hdevice, hmax, hslot, hpair, hsrc, haborted⟩ := hsame
    rw [hdevice] at hknown htoken
    rw [hmax] at htoken
    rw [hpool] at hknown
    refine ⟨?_, ?_, hknown, htoken rfl, ?_, ?_, ?_, ?_, ?_, ?_, ?_, ?_, ?_⟩
    · exact (congrArg PleReq.prompt heq).trans hprompt
    · exact (congrArg PleReq.inputIds heq).trans hids
    · exact (congrArg PleReq.cachedLen heq).trans hdevice
    · exact (congrArg PleReq.deviceLen heq).trans (congrArg (· + 1) hdevice)
    · exact (congrArg PleReq.maxDeviceLen heq).trans hmax
    · exact (congrArg PleReq.linearSlot heq).trans hslot
    · exact (congrArg PleReq.pingPong heq).trans hpair
    · exact (congrArg PleReq.nextTrack heq).trans hnext
    · exact (congrArg PleReq.lastTrack heq).trans hlast
    · exact (congrArg PleReq.restoreSrc heq).trans hsrc
    · exact (congrArg PleReq.aborted heq).trans haborted
  have hdone :
    x.done = ((if x.anchor then x.req.freeze else x.req).writeToken x.token).completeOne := rfl
  cases hanchor : x.anchor with
  | true =>
    rw [hanchor, if_pos rfl] at hdone
    exact hframe _ (Or.inr rfl) hdone (by rw [hanchor, if_pos rfl]; rfl)
      (by rw [hanchor, if_pos rfl]; rfl)
  | false =>
    rw [hanchor, if_neg Bool.false_ne_true] at hdone
    exact hframe _ (Or.inl rfl) hdone (by rw [hanchor, if_neg Bool.false_ne_true])
      (by rw [hanchor, if_neg Bool.false_ne_true])

/-- What holds of a request that can be decoded. -/
structure Decoding (e : NGramEmbedding) (w : PleWorld) (uid : ℕ) (r : PleReq) : Prop where
  ok : ReqOk e w uid r
  pos : 0 < r.cachedLen
  device : r.deviceLen = r.cachedLen + 1
  count : r.inputIds.length + (w.tokensOf uid).length = r.deviceLen
  pending : ∀ j t, (w.tokensOf uid)[j]? = some t → r.inputIds.length + j < r.maxDeviceLen →
    r.tokenPool (r.inputIds.length + j) = t
  small : e.args.imageTokenId.isSome → (r.tokenPool r.cachedLen).toInt < mmPadShift
  src : r.restoreSrc = none
  known_le : r.cachedLen ≤ r.inputIds.length

section Decodable

variable (h : PleInv e padSlot w) (hdec : w.Decodable e padSlot batch pads) (hx : x ∈ batch)

include h hdec hx

theorem PleInv.decoding : Decoding e w x.uid x.req := by
  obtain ⟨hreq, -, hdone, hmax⟩ := hdec.entry x hx
  have hok := h.reqs x.uid x.req hreq
  have hcount : w.countOf x.uid ≤ 1 := (countOf_le h.pending_nodup).trans hdec.pending
  have hpos : 0 < x.req.cachedLen := hok.prompt_le.1.trans_le hdone
  cases hok.phase with
  | prefill _ hlt _ => exact absurd hlt (not_lt.mpr hdone)
  | decode _ hdevice hlen hpending hsmall =>
    refine ⟨hok, hpos, hdevice, hlen, hpending, fun himage => hsmall himage (by omega),
      hok.restoreSrc_eq_none fun heq => ?_, hok.cachedLen_le hcount⟩
    omega

theorem PleInv.decode_eq {y : DecodeEntry} (hy : y ∈ batch) {slot : ℕ} (hslot : slot ∈ x.req.slots)
    (hslot' : slot ∈ y.req.slots) : x = y := by
  have hreq := (hdec.entry x hx).1
  have hreq' := (hdec.entry y hy).1
  refine inj_on_of_nodup_map hdec.nodup hx hy ?_
  by_contra hne
  exact h.apart _ _ _ _ hreq hreq' hne hslot hslot'

end Decodable

/-! ### Anchors -/

/-- The slot that an anchor is copied to. -/
def DecodeEntry.anchorDst (x : DecodeEntry) : Option ℕ :=
  if x.anchor then x.req.trackSlot x.req.nextTrack else none

theorem anchorDst_eq {dst : ℕ} (h : x.anchorDst = some dst) :
    x.anchor = true ∧ x.req.trackSlot x.req.nextTrack = some dst := by
  unfold DecodeEntry.anchorDst at h
  split_ifs at h with hanchor
  exact ⟨hanchor, h⟩

section Anchored

variable (h : PleInv e padSlot w) (hdec : w.Decodable e padSlot batch pads)

include h hdec

theorem PleInv.anchored_spec :
    (∀ x ∈ batch, ∀ dst, x.anchorDst = some dst → w.anchored batch dst =
      w.contextPool x.req.linearSlot) ∧
      ∀ slot, (∀ x ∈ batch, x.anchorDst ≠ some slot) → w.anchored batch slot =
        w.contextPool slot := by
  have hpairs : (batch.filterMap fun x =>
      if x.anchor then (x.req.trackSlot x.req.nextTrack).map fun dst => (x.req.linearSlot, dst)
        else none) =
      batch.filterMap fun x => x.anchorDst.map fun dst => (x.req.linearSlot, dst) := by
    congr 1
    funext x
    unfold DecodeEntry.anchorDst
    split_ifs <;> rfl
  have hdsts :
      (batch.filterMap fun x => x.anchorDst.map fun dst => (x.req.linearSlot, dst)).map Prod.snd =
      batch.filterMap DecodeEntry.anchorDst := by
    rw [map_filterMap]
    congr 1
    funext x
    rw [Option.map_map]
    exact Option.map_id'
  have hnodup : (batch.filterMap DecodeEntry.anchorDst).Nodup :=
    h.nodup_slots DecodeEntry.req (fun x hx => (hdec.entry x hx).1) hdec.nodup
      fun x _ slot hslot => trackSlot_mem (anchorDst_eq hslot).2
  have hspec :=
    copySlots_spec (batch.filterMap fun x => x.anchorDst.map fun dst => (x.req.linearSlot, dst))
    (hdsts ▸ hnodup) (fun p hp hmem => ?_) w.contextPool
  · unfold PleWorld.anchored
    rw [hpairs]
    refine ⟨fun x hx dst hdst => hspec.1 (x.req.linearSlot, dst) ?_, fun slot hslot =>
      hspec.2 slot fun hmem => ?_⟩
    · exact List.mem_filterMap.mpr ⟨x, hx, by rw [hdst]; rfl⟩
    · rw [hdsts] at hmem
      obtain ⟨x, hx, hdst⟩ := List.mem_filterMap.mp hmem
      exact hslot x hx hdst
  · -- a live slot is never a track slot
    obtain ⟨x, hx, hsome⟩ := List.mem_filterMap.mp hp
    obtain ⟨dst, -, rfl⟩ := Option.map_eq_some_iff.mp hsome
    rw [hdsts] at hmem
    obtain ⟨y, hy, hdst⟩ := List.mem_filterMap.mp hmem
    have htrack := (anchorDst_eq hdst).2
    obtain rfl := h.decode_eq hdec hx hy linearSlot_mem (trackSlot_mem htrack)
    exact trackSlot_ne (h.own x.uid x.req (hdec.entry x hx).1).1 htrack rfl

/-- The context in front of a decode. -/
theorem PleInv.anchored_window (hx : x ∈ batch) :
    w.anchored batch x.req.linearSlot = windowOf e.args (x.req.seq x.req.cachedLen) := by
  have hok := h.decoding hdec hx
  rw [(h.anchored_spec hdec).2, hok.ok.live hok.src hok.pos]
  intro y hy hdst
  have htrack := (anchorDst_eq hdst).2
  obtain rfl := h.decode_eq hdec hx hy linearSlot_mem (trackSlot_mem htrack)
  exact trackSlot_ne (h.own x.uid x.req (hdec.entry x hx).1).1 htrack rfl

end Anchored

theorem PleInv.anchored_width (h : PleInv e padSlot w) (slot : ℕ) :
    (w.anchored batch slot).length = e.args.ngramSize - 1 :=
  copySlots_width h.width _ slot

/-! ### Committed contexts -/

def DecodeEntry.run (x : DecodeEntry) (args : Qwen4ExpArgs) : PleRun :=
  ((windowOf args (x.req.seq x.req.cachedLen)).map long,
    (hashedIds args [x.req.tokenPool x.req.cachedLen]).map long)

def padRuns (args : Qwen4ExpArgs) (pool : ContextPool) (pads : List BatchReq) : List PleRun :=
  pads.map fun pad => runOf args (pool pad.slot) pad

section Committed

variable (h : PleInv e padSlot w) (hdec : w.Decodable e padSlot batch pads)

include h hdec

theorem PleInv.decode_inputIds (hx : x ∈ batch) :
    x.req.batchReq.inputIds = [x.req.tokenPool x.req.cachedLen] := by
  show (List.range' x.req.cachedLen (x.req.deviceLen - x.req.cachedLen)).map x.req.tokenPool = _
  rw [(h.decoding hdec hx).device, Nat.add_sub_cancel_left]
  rfl

theorem PleInv.decodes : Decodes (w.decodeMeta e batch pads) (e.args.ngramSize - 1)
    ((batch.map fun x => x.run e.args) ++ padRuns e.args (w.anchored batch) pads) := by
  have hruns := @decodes_build e.args ((batch.map fun x => x.req.batchReq) ++ pads)
    (w.anchored batch) (fun r _ => h.anchored_width r.slot) fun r hr => ?_
  · have hmap :
        ((batch.map fun x => x.req.batchReq).map fun r => runOf e.args (w.anchored batch r.slot)
          r) = batch.map fun x => x.run e.args := by
      rw [map_map]
      refine map_congr_left fun x hx => ?_
      have hwindow :
          w.anchored batch x.req.batchReq.slot = windowOf e.args (x.req.seq x.req.cachedLen) :=
        h.anchored_window hdec hx
      rw [Function.comp_apply, hwindow]
      unfold runOf DecodeEntry.run
      rw [h.decode_inputIds hdec hx]
    rw [map_append, hmap] at hruns
    exact hruns
  · rcases List.mem_append.mp hr with hr | hr
    · obtain ⟨x, hx, rfl⟩ := List.mem_map.mp hr
      rw [h.decode_inputIds hdec hx]
      rfl
    · exact (hdec.pads r hr).2

theorem PleInv.decode_pool (hctx : 0 < e.args.ngramSize - 1) {slot : ℕ} (hslot : slot ≠ padSlot) :
    (w.decode e batch pads).contextPool slot =
      indexPut (w.anchored batch) (batch.map fun x => x.req.linearSlot)
        (committed (batch.map fun x => x.run e.args)) slot := by
  have hslots :
      (w.decodeMeta e batch pads).stateSlots = (batch.map fun x => x.req.linearSlot) ++
      pads.map BatchReq.slot := by
    show ((batch.map fun x => x.req.batchReq) ++ pads).map BatchReq.slot = _
    rw [map_append, map_map]
    rfl
  have hcommitted :
      committed ((batch.map fun x => x.run e.args) ++ padRuns e.args (w.anchored batch) pads) =
      committed (batch.map fun x => x.run e.args) ++
        committed (padRuns e.args (w.anchored batch) pads) := map_append
  show commitNgramContext _ (e.args.ngramSize - 1) [] [] _ slot = _
  rw [commit_decode hctx (h.decodes hdec), hslots, hcommitted, indexPut_append, indexPut_of_notMem]
  · intro hmem
    obtain ⟨pad, hpad, rfl⟩ := List.mem_map.mp hmem
    exact hslot (hdec.pads pad hpad).1
  · rw [committed, length_map, length_map, length_map]

theorem PleInv.decode_width (hctx : 0 < e.args.ngramSize - 1) (slot : ℕ) :
    ((w.decode e batch pads).contextPool slot).length = e.args.ngramSize - 1 := by
  show (commitNgramContext _ (e.args.ngramSize - 1) [] [] _ slot).length = _
  rw [commit_decode hctx (h.decodes hdec)]
  refine indexPut_width h.anchored_width ?_ (fun v hv => ?_) slot
  · show (((batch.map fun x => x.req.batchReq) ++ pads).map BatchReq.slot).length = _
    rw [committed, length_map, length_map, length_append, length_append, length_map, length_map,
      padRuns, length_map]
  · obtain ⟨run, hrun, rfl⟩ := List.mem_map.mp hv
    have hwidth := (h.decodes hdec).width run hrun
    unfold windowAfter
    rw [length_map, length_drop, length_append, hwidth, Nat.add_sub_cancel]

theorem PleInv.decode_live (hctx : 0 < e.args.ngramSize - 1) (hx : x ∈ batch) :
    (w.decode e batch pads).contextPool x.req.linearSlot = windowOf e.args
    (x.req.seq (x.req.cachedLen + 1)) := by
  have hlive : (batch.map fun x => x.req.linearSlot).Nodup := by
    have hsome := h.nodup_slots (f := fun x => some x.req.linearSlot) DecodeEntry.req
      (fun x hx => (hdec.entry x hx).1) hdec.nodup fun x _ slot hslot =>
        Option.some.inj hslot ▸ linearSlot_mem
    rwa [filterMap_eq_map'] at hsome
  obtain ⟨k, hk⟩ := mem_iff_getElem?.mp hx
  have hseq :
    x.req.seq (x.req.cachedLen + 1) = x.req.seq x.req.cachedLen ++ x.req.batchReq.inputIds := by
    rw [h.decode_inputIds hdec hx]
    unfold PleReq.seq
    rw [range_succ, map_append]
    rfl
  rw [h.decode_pool hdec hctx ((h.own _ _ (hdec.entry x hx).1).2 _ linearSlot_mem).1, hseq,
    ← windowAfter_runOf]
  refine indexPut_get (k := k) hlive ?_ ?_ ?_
  · rw [committed, length_map, length_map, length_map]
  · rw [List.getElem?_map, hk]
    rfl
  · rw [committed, List.getElem?_map, List.getElem?_map, hk]
    unfold runOf
    rw [h.decode_inputIds hdec hx]
    rfl

theorem PleInv.decode_rest (hctx : 0 < e.args.ngramSize - 1) {slot : ℕ} (hpad : slot ≠ padSlot)
    (hslot : ∀ x ∈ batch, slot ≠ x.req.linearSlot) :
    (w.decode e batch pads).contextPool slot = w.anchored batch slot := by
  rw [h.decode_pool hdec hctx hpad, indexPut_of_notMem]
  intro hmem
  obtain ⟨x, hx, rfl⟩ := List.mem_map.mp hmem
  exact hslot x hx rfl

theorem PleInv.decode_track (hctx : 0 < e.args.ngramSize - 1) (hx : x ∈ batch) {second : Bool}
    {slot : ℕ}
    (hslot : x.req.trackSlot second = some slot) :
    (w.decode e batch pads).contextPool slot = w.anchored batch slot := by
  obtain ⟨hnodup, hown⟩ := h.own _ _ (hdec.entry x hx).1
  refine h.decode_rest hdec hctx (hown slot (trackSlot_mem hslot)).1 fun y hy heq => ?_
  obtain rfl := h.decode_eq hdec hx hy (trackSlot_mem hslot) (heq ▸ linearSlot_mem)
  exact trackSlot_ne hnodup hslot heq

end Committed

/-- **A decode** keeps what holds in every state. -/
theorem PleInv.decode (hctx : 0 < e.args.ngramSize - 1) (h : PleInv e padSlot w)
    (hdec : w.Decodable e padSlot batch pads) :
    PleInv e padSlot (w.decode e batch pads) := by
  show PleInv e padSlot (w.forward batch DecodeEntry.uid DecodeEntry.done (fun x => some x.token)
    (w.decode e batch pads).contextPool)
  refine h.forward DecodeEntry.req hdec.pending hdec.nodup (fun x hx => (hdec.entry x hx).1)
    (fun x _ => ?_) (h.decode_width hdec hctx) (fun slot hpad hslot => ?_) fun x hx => ?_
  · have hdone := decodeDone x
    unfold PleReq.slots
    rw [hdone.linearSlot, hdone.pingPong]
  · rw [h.decode_rest hdec hctx hpad fun x hx heq =>
      hslot x hx (heq ▸ linearSlot_mem), (h.anchored_spec hdec).2]
    exact fun x hx hdst => hslot x hx (trackSlot_mem (anchorDst_eq hdst).2)
  · obtain ⟨hok, hpos, hdevice, hcount, hpending, hsmall, hsrc, hknown⟩ := h.decoding hdec hx
    obtain ⟨-, haborted, hprompt, hmax⟩ := hdec.entry x hx
    have hdone := decodeDone x
    have htokens := forward_tokensOf_of_mem w DecodeEntry.done (fun x => some x.token)
      (w.decode e batch pads).contextPool hdec.nodup hx
    rw [Option.toList_some] at htokens
    refine ⟨?_, ?_, fun i t hget hi => ?_, .decode ?_ ?_ ?_ (fun j t hj hlt => ?_)
      (fun himage hlt => ?_), fun _ _ => ?_, fun src hsome => ?_, fun len hlast => ?_, fun habort =>
      ?_⟩
    · rw [hdone.prompt, hdone.maxDeviceLen]
      exact hok.prompt_le
    · rw [hdone.cachedLen, hdone.maxDeviceLen]
      exact hmax.le
    · rw [hdone.inputIds] at hget
      rw [hdone.maxDeviceLen] at hi
      have hlt := (List.getElem?_eq_some_iff.mp hget).1
      rw [hdone.known i (by omega), hok.known i t hget hi]
    · rw [hdone.prompt, hdone.cachedLen]
      omega
    · rw [hdone.deviceLen, hdone.cachedLen]
    · rw [hdone.inputIds, htokens, hdone.deviceLen, length_append, length_singleton]
      omega
    · -- the pending tokens: those from before, and the new one
      rw [htokens] at hj
      rw [hdone.inputIds, hdone.maxDeviceLen] at hlt
      rw [hdone.inputIds]
      by_cases hold : j < (w.tokensOf x.uid).length
      · rw [List.getElem?_append_left hold] at hj
        rw [hdone.known _ (by omega), hpending j t hj hlt]
      · have hj' := (List.getElem?_eq_some_iff.mp hj).1
        rw [length_append, length_singleton] at hj'
        have hlast : j = (w.tokensOf x.uid).length := by omega
        rw [hlast, List.getElem?_concat_length, Option.some.injEq] at hj
        rw [hlast, hcount, hdone.token hmax, hj]
    · rw [hdone.cachedLen, hdone.token hmax]
      exact hdec.token himage x hx
    · -- the live slot holds the window behind the decoded token
      show (w.decode e batch pads).contextPool x.done.linearSlot = _
      have hseq : x.done.seq x.done.cachedLen = x.req.seq (x.req.cachedLen + 1) := by
        unfold PleReq.seq
        rw [hdone.cachedLen, hdevice]
        refine map_congr_left fun i hi => hdone.known i ?_
        rw [hdevice]
        exact List.mem_range.mp hi
      rw [hdone.linearSlot, h.decode_live hdec hctx hx, hseq]
    · rw [hdone.restoreSrc, hsrc] at hsome
      exact absurd hsome.symm (Option.some_ne_none src)
    · -- the frozen slot: taken before this decode, or kept from an earlier one
      rw [hdone.lastTrack] at hlast
      rw [hdone.inputIds]
      have htrack : ∀ second, x.done.trackSlot second = x.req.trackSlot second := by
        intro second
        unfold PleReq.trackSlot
        rw [hdone.pingPong]
      rw [htrack, hdone.nextTrack]
      show len ≤ _ ∧ ∃ slot, _ ∧ (w.decode e batch pads).contextPool slot = _
      cases hanchor : x.anchor with
      | true =>
        rw [hanchor, if_pos rfl, Option.some.injEq] at hlast
        subst hlast
        obtain ⟨pair, hpair⟩ := Option.ne_none_iff_exists'.mp (hdec.anchor x hx hanchor).1
        have hslot :
            x.req.trackSlot x.req.nextTrack =
            some (if x.req.nextTrack then pair.2 else pair.1) := by
          unfold PleReq.trackSlot
          rw [hpair]
          rfl
        have hdst : x.anchorDst = some (if x.req.nextTrack then pair.2 else pair.1) := by
          rw [← hslot]
          exact if_pos hanchor
        rw [if_pos rfl, Bool.not_not]
        refine ⟨hknown, _, hslot, ?_⟩
        rw [h.decode_track hdec hctx hx hslot, (h.anchored_spec hdec).1 x hx _ hdst,
          hok.live hsrc hpos, hok.seq_eq hknown hok.cached_le]
      | false =>
        rw [hanchor, if_neg Bool.false_ne_true] at hlast
        rw [if_neg Bool.false_ne_true]
        obtain ⟨hle, slot, hslot, hwindow⟩ := hok.frozen len hlast
        refine ⟨hle, slot, hslot, ?_⟩
        rw [h.decode_track hdec hctx hx hslot, (h.anchored_spec hdec).2, hwindow]
        intro y hy hdst
        obtain ⟨hyes, htrack'⟩ := anchorDst_eq hdst
        obtain rfl := h.decode_eq hdec hx hy (trackSlot_mem hslot) (trackSlot_mem htrack')
        rw [hanchor] at hyes
        exact Bool.false_ne_true hyes
    · rw [hdone.aborted, haborted] at habort
      exact absurd habort Bool.false_ne_true

end Ple

end FreeToken
