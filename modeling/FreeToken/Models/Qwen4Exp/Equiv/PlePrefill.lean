import FreeToken.Models.Qwen4Exp.Equiv.PleForward

/-!
# A prefill keeps the contexts

* `PleInv.prefills`: the runs of a prefill batch, whether a request is restored, new or in the
  middle of its prompt.
* `PleInv.prefill`: the live slot and the snapshot of every request of the batch have the windows
  that they should have.
-/

namespace FreeToken

open List

namespace Ple

variable {e : NGramEmbedding} {d : DiskRowTable} {padSlot : ℕ} {w : PleWorld}
  {batch : List PrefillEntry} {x : PrefillEntry} {uid : ℕ} {r : PleReq}

/-- The tokens that a prefill runs for a request. -/
def PrefillEntry.toks (x : PrefillEntry) : List (BitVec 32) :=
  (x.req.prompt.take (x.req.cachedLen + x.len)).drop x.req.cachedLen

def PrefillEntry.hist (x : PrefillEntry) : List (BitVec 32) := x.req.prompt.take x.req.cachedLen

def PrefillEntry.run (x : PrefillEntry) (args : Qwen4ExpArgs) : PleRun :=
  ((windowOf args x.hist).map long, (hashedIds args x.toks).map long)

theorem length_toks (hlen : x.req.cachedLen + x.len ≤ x.req.prompt.length) :
    x.toks.length = x.len := by
  unfold PrefillEntry.toks
  rw [length_drop, length_take, min_eq_left hlen, Nat.add_sub_cancel_left]

theorem hist_append_take {n : ℕ} (hn : n ≤ x.len) :
    x.hist ++ x.toks.take n = x.req.prompt.take (x.req.cachedLen + n) := by
  have hhist : x.hist = (x.req.prompt.take (x.req.cachedLen + n)).take x.req.cachedLen := by
    rw [take_take, min_eq_left (Nat.le_add_right _ _)]
    rfl
  have htoks : x.toks.take n = (x.req.prompt.take (x.req.cachedLen + n)).drop x.req.cachedLen := by
    unfold PrefillEntry.toks
    rw [take_drop, take_take, min_eq_left (Nat.add_le_add_left hn _)]
  rw [hhist, htoks, take_append_drop]

/-- The batch has the tokens of the prompt. -/
theorem started_inputIds (hlen : x.req.cachedLen + x.len ≤ x.req.prompt.length) :
    x.started.batchReq.inputIds = x.toks := by
  have hstarted : x.started.batchReq.inputIds =
      (List.range' x.req.cachedLen x.len).map
        (writeRow x.req.tokenPool x.req.cachedLen x.toks) := by
    show (List.range' x.req.cachedLen (x.req.cachedLen + x.len - x.req.cachedLen)).map _ = _
    rw [Nat.add_sub_cancel_left]
    rfl
  rw [hstarted]
  apply ext_getElem?
  intro i
  rw [List.getElem?_map]
  by_cases hi : i < x.len
  · have hi' : i < x.toks.length := by rwa [length_toks hlen]
    have hget : x.toks[i]? = some x.toks[i] := List.getElem?_eq_getElem hi'
    have hrange : (List.range' x.req.cachedLen x.len)[i]? = some (x.req.cachedLen + i) := by
      rw [List.getElem?_range' hi, one_mul]
    rw [hrange, Option.map_some, hget, writeRow_of_get (Nat.le_add_right _ _)]
    rw [Nat.add_sub_cancel_left, hget]
  · rw [List.getElem?_eq_none (by rw [length_range']; omega),
      List.getElem?_eq_none (by rw [length_toks hlen]; omega)]
    rfl

theorem ReqOk.prefilling (h : ReqOk e w uid r) (hlt : r.cachedLen < r.prompt.length) :
    r.inputIds = r.prompt.take r.cachedLen ∧ w.tokensOf uid = [] := by
  cases h.phase with
  | prefill hids _ hnone => exact ⟨hids, hnone⟩
  | decode hle _ _ _ _ => exact absurd hlt (not_lt.mpr hle)

section Prefillable

variable (h : PleInv e padSlot w) (hpre : w.Prefillable e batch) (hx : x ∈ batch)

include h hpre hx

theorem PleInv.entry : ReqOk e w x.uid x.req ∧ x.req.cachedLen < x.req.prompt.length ∧
    x.req.cachedLen + x.len ≤ x.req.prompt.length := by
  obtain ⟨hreq, -, hpos, hlen⟩ := hpre.entry x hx
  exact ⟨h.reqs x.uid x.req hreq, by omega, hlen⟩

theorem PleInv.entry_eq {y : PrefillEntry} (hy : y ∈ batch) {slot : ℕ} (hslot : slot ∈ x.req.slots)
    (hslot' : slot ∈ y.req.slots) : x.uid = y.uid ∧ x.req = y.req := by
  have hreq := (hpre.entry x hx).1
  have hreq' := (hpre.entry y hy).1
  by_cases heq : x.uid = y.uid
  · rw [heq] at hreq
    exact ⟨heq, Option.some.inj (hreq.symm.trans hreq')⟩
  · exact absurd hslot' (h.apart _ _ _ _ hreq hreq' heq hslot)

end Prefillable

/-! ### Restored contexts -/

theorem PleInv.restored_width (h : PleInv e padSlot w) (slot : ℕ) :
    (w.restored batch slot).length = e.args.ngramSize - 1 :=
  copySlots_width h.width _ slot

section Restored

variable (h : PleInv e padSlot w) (hpre : w.Prefillable e batch)

include h hpre

theorem PleInv.restored_spec :
    (∀ x ∈ batch, ∀ src, x.req.restoreSrc = some src → w.restored batch x.req.linearSlot =
      w.contextPool src) ∧
      ∀ slot, (∀ x ∈ batch, x.req.restoreSrc ≠ none → slot ≠ x.req.linearSlot) →
        w.restored batch slot = w.contextPool slot := by
  have hdsts :
      (batch.filterMap fun x => x.req.restoreSrc.map fun src => (src, x.req.linearSlot)).map
      Prod.snd = batch.filterMap fun x => x.req.restoreSrc.map fun _ => x.req.linearSlot := by
    rw [map_filterMap]
    congr 1
    funext x
    rw [Option.map_map]
    rfl
  have hnodup :
    (batch.filterMap fun x => x.req.restoreSrc.map fun _ => x.req.linearSlot).Nodup := by
    refine h.nodup_slots PrefillEntry.req (fun x hx => (hpre.entry x hx).1) hpre.nodup
      fun x hx slot hslot => ?_
    obtain ⟨_, -, rfl⟩ := Option.map_eq_some_iff.mp hslot
    exact linearSlot_mem
  have hspec := copySlots_spec (batch.filterMap fun x => x.req.restoreSrc.map fun src =>
      (src, x.req.linearSlot)) (hdsts ▸ hnodup) (fun p hp hmem => ?_) w.contextPool
  · refine ⟨fun x hx src hsrc => hspec.1 (src, x.req.linearSlot) ?_, fun slot hslot =>
      hspec.2 slot fun hmem => ?_⟩
    · exact List.mem_filterMap.mpr ⟨x, hx, by rw [hsrc]; rfl⟩
    · rw [hdsts] at hmem
      obtain ⟨x, hx, hsome⟩ := List.mem_filterMap.mp hmem
      obtain ⟨src, hsrc, rfl⟩ := Option.map_eq_some_iff.mp hsome
      exact hslot x hx (by rw [hsrc]; exact Option.some_ne_none src) rfl
  · -- the source is a snapshot, which nobody has
    obtain ⟨x, hx, hsome⟩ := List.mem_filterMap.mp hp
    obtain ⟨src, hsrc, rfl⟩ := Option.map_eq_some_iff.mp hsome
    rw [hdsts] at hmem
    obtain ⟨y, hy, hsome'⟩ := List.mem_filterMap.mp hmem
    obtain ⟨_, -, heq⟩ := Option.map_eq_some_iff.mp hsome'
    have hsnapshot := ((h.entry hpre hx).1.src src hsrc).1
    have hown := (h.own y.uid y.req (hpre.entry y hy).1).2 _ linearSlot_mem
    exact hown.2 _ hsnapshot heq

theorem PleInv.restored_window (hx : x ∈ batch) :
    prefillContext e.args (w.restored batch) x.started.batchReq = windowOf e.args x.hist := by
  obtain ⟨hok, hlt, hlen⟩ := h.entry hpre hx
  obtain ⟨hids, -⟩ := hok.prefilling hlt
  obtain ⟨hcopy, hkeep⟩ := h.restored_spec hpre
  unfold prefillContext
  split_ifs with hzero
  · have hnil : x.hist = [] := List.take_eq_nil_iff.mpr (Or.inl hzero)
    rw [h.restored_width, hnil, windowOf_nil]
  · show w.restored batch x.req.linearSlot = _
    cases hsrc : x.req.restoreSrc with
    | some src =>
      rw [hcopy x hx src hsrc]
      exact (h.snapshots _ (hok.src src hsrc).1).2
    | none =>
      have hlive : w.restored batch x.req.linearSlot = w.contextPool x.req.linearSlot := by
        refine hkeep _ fun y hy hne heq => ?_
        obtain ⟨-, hsame⟩ := h.entry_eq hpre hx hy linearSlot_mem (heq ▸ linearSlot_mem)
        rw [← hsame] at hne
        exact hne hsrc
      have hknown : x.req.cachedLen ≤ x.req.inputIds.length := by
        rw [hids, length_take]
        omega
      rw [hlive, hok.live hsrc (pos_of_ne_zero hzero), hok.seq_eq hknown hok.cached_le, hids,
        take_take, min_self]
      rfl

theorem PleInv.prefills :
    Prefills (w.prefillMeta e batch) (e.args.ngramSize - 1) (batch.map fun x => x.run e.args) := by
  have hruns := @prefills_build e.args (batch.map fun x => x.started.batchReq) (w.restored batch)
    fun r _ => h.restored_width r.slot
  have hmap : (batch.map fun x => x.started.batchReq).map
      (fun r => runOf e.args (prefillContext e.args (w.restored batch) r) r) = batch.map fun x =>
        x.run e.args := by
    rw [map_map]
    refine map_congr_left fun x hx => ?_
    rw [Function.comp_apply, h.restored_window hpre hx]
    unfold runOf PrefillEntry.run
    rw [started_inputIds (h.entry hpre hx).2.2]
  rwa [hmap] at hruns

end Restored

/-! ### Committed contexts -/

/-- The slot of the snapshot that a forward takes. -/
def PleReq.trackDst (r : PleReq) : Option ℕ :=
  if r.trackChunks < 1 then none else r.trackSlot r.nextTrack

/-- The boundary is inside the forward. -/
theorem trackChunks_le (x : PrefillEntry) : x.started.trackChunks * chunkSize ≤ x.len := by
  have hdiv := Nat.div_mul_le_self (x.req.cachedLen + x.len - x.req.cachedLen - 1) chunkSize
  have heq : x.started.trackChunks = (x.req.cachedLen + x.len - x.req.cachedLen - 1) / chunkSize :=
    rfl
  rw [heq]
  omega

theorem trackRow_eq (r : PleReq) (off : ℕ) :
    r.trackRow off = r.trackDst.map fun dst => (off + r.trackChunks * chunkSize, dst) := by
  unfold PleReq.trackRow PleReq.trackDst
  split_ifs <;> rfl

theorem trackDst_mem {dst : ℕ} (h : r.trackDst = some dst) :
    r.trackSlot r.nextTrack = some dst ∧ 1 ≤ r.trackChunks := by
  unfold PleReq.trackDst at h
  split_ifs at h with hlt
  exact ⟨h, not_lt.mp hlt⟩

theorem trackRows_snd (off : ℕ) (batch : List PrefillEntry) :
    (trackRows off batch).map Prod.snd = batch.filterMap fun x => x.started.trackDst := by
  induction batch generalizing off with
  | nil => rfl
  | cons x batch ih =>
    rw [trackRows, map_append, ih, filterMap_cons, trackRow_eq]
    cases x.started.trackDst <;> rfl

theorem trackRows_mem {toks : List (List (BitVec 64))} {off k : ℕ} {p : ℕ × ℕ}
    (hlens : toks.map List.length = batch.map PrefillEntry.len) (hk : batch[k]? = some x)
    (hp : x.started.trackRow (off + startOf toks k) = some p) : p ∈ trackRows off batch := by
  induction batch generalizing off k toks with
  | nil => exact absurd hk.symm (Option.some_ne_none x)
  | cons y batch ih =>
    cases toks with
    | nil => cases hlens
    | cons ts toks =>
      rw [map_cons, map_cons, List.cons.injEq] at hlens
      rw [trackRows]
      cases k with
      | zero =>
        obtain rfl := Option.some.inj hk
        refine mem_append_left _ (Option.mem_toList.mpr ?_)
        rwa [startOf_zero, add_zero] at hp
      | succ k =>
        refine mem_append_right _ (ih hlens.2 hk ?_)
        have hstart : startOf (ts :: toks) (k + 1) = y.len + startOf toks k := by
          unfold startOf
          rw [take_succ_cons, flatten_cons, length_append, hlens.1]
        rwa [hstart, ← add_assoc] at hp

theorem windowOf_boundary {args : Qwen4ExpArgs} {runs : List PleRun} {k n : ℕ}
    {context : List (BitVec 64)}
    {hist toks : List (BitVec 32)}
    (hrun : runs[k]? = some (context, (hashedIds args toks).map long))
    (hn : n ≤ toks.length) (hctx : args.ngramSize - 1 ≤ n) :
    ((List.range (args.ngramSize - 1)).map fun j =>
      ((toksOf runs).flatten.getD (startOf (toksOf runs) k + n + j - (args.ngramSize - 1))
        0).setWidth 32) =
      windowOf args (hist ++ toks.take n) := by
  have htoks : (toksOf runs)[k]? = some ((hashedIds args toks).map long) := by
    rw [List.getElem?_map, hrun]
    rfl
  have hsplit :
    hashedIds args toks = hashedIds args (toks.take n) ++ hashedIds args (toks.drop n) := by
    rw [← hashedIds_append, take_append_drop]
  have hlen : (hashedIds args (toks.take n)).length = n := by
    rw [length_hashedIds, length_take, min_eq_left hn]
  rw [windowOf_append]
  apply ext_getElem?
  intro j
  rw [List.getElem?_map, List.getElem?_drop, length_take, min_eq_left hn]
  by_cases hj : j < args.ngramSize - 1
  · have hidx : startOf (toksOf runs) k + n + j - (args.ngramSize - 1) =
        startOf (toksOf runs) k + (n + j - (args.ngramSize - 1)) := by omega
    have hlt : n + j - (args.ngramSize - 1) < (hashedIds args (toks.take n)).length := by omega
    have hlt' : n + j - (args.ngramSize - 1) < ((hashedIds args toks).map long).length := by
      rw [length_map, length_hashedIds]
      omega
    rw [List.getElem?_range hj, Option.map_some, hidx, getD_eq_getElem?_getD,
      getElem?_startOf htoks hlt', List.getElem?_append_right (by rw [length_windowOf]; omega),
      length_windowOf, List.getElem?_map, hsplit, List.getElem?_append_left hlt,
      List.getElem?_eq_getElem hlt, Option.map_some, Option.getD_some, setWidth_long]
  · rw [List.getElem?_eq_none (by rw [length_range]; omega), List.getElem?_eq_none]
    · rfl
    · rw [length_append, length_windowOf, hlen]
      omega

section Committed

variable (h : PleInv e padSlot w) (hpre : w.Prefillable e batch)

include h hpre

theorem PleInv.prefill_pool :
    (w.prefill e batch).contextPool =
      indexPut (indexPut (w.restored batch) (batch.map fun x => x.req.linearSlot)
        (committed (batch.map fun x => x.run e.args))) (batch.filterMap fun x => x.started.trackDst)
        (((trackRows 0 batch).map Prod.fst).map fun row =>
          (List.range (e.args.ngramSize - 1)).map fun j =>
          ((toksOf (batch.map fun x => x.run e.args)).flatten.getD
            (row + j - (e.args.ngramSize - 1)) 0).setWidth 32) := by
  have hcommit := commit_prefill (h.prefills hpre) ((trackRows 0 batch).map Prod.fst)
    ((trackRows 0 batch).map Prod.snd) (w.restored batch)
  have hslots : (w.prefillMeta e batch).stateSlots = batch.map fun x => x.req.linearSlot := by
    show (batch.map fun x => x.started.batchReq).map BatchReq.slot = _
    rw [map_map]
    rfl
  rw [hslots, trackRows_snd] at hcommit
  rw [← hcommit, ← trackRows_snd 0]
  rfl

theorem PleInv.prefill_nodup : (batch.map fun x => x.req.linearSlot).Nodup ∧
    (batch.filterMap fun x => x.started.trackDst).Nodup ∧
    ∀ x ∈ batch, x.req.linearSlot ∉ batch.filterMap fun y => y.started.trackDst := by
  refine ⟨?_, ?_, fun x hx hmem => ?_⟩
  · have hlive := h.nodup_slots (f := fun x => some x.req.linearSlot) PrefillEntry.req
      (fun x hx => (hpre.entry x hx).1) hpre.nodup fun x _ slot hslot =>
        Option.some.inj hslot ▸ linearSlot_mem
    rwa [filterMap_eq_map'] at hlive
  · exact h.nodup_slots PrefillEntry.req (fun x hx => (hpre.entry x hx).1) hpre.nodup
      fun x _ slot hslot => trackSlot_mem (r := x.started) (trackDst_mem hslot).1
  · obtain ⟨y, hy, hdst⟩ := List.mem_filterMap.mp hmem
    have htrack := (trackDst_mem hdst).1
    obtain ⟨-, hsame⟩ :=
      h.entry_eq hpre hx hy linearSlot_mem (trackSlot_mem (r := y.started) htrack)
    exact trackSlot_ne (r := y.started) (h.own y.uid y.req (hpre.entry y hy).1).1 htrack
      (by rw [hsame]; rfl)

theorem PleInv.prefill_live (hx : x ∈ batch) :
    (w.prefill e batch).contextPool x.req.linearSlot = windowOf e.args
    (x.req.prompt.take (x.req.cachedLen + x.len)) := by
  obtain ⟨hlive, -, hapart⟩ := h.prefill_nodup hpre
  obtain ⟨-, -, hlen⟩ := h.entry hpre hx
  obtain ⟨k, hk⟩ := mem_iff_getElem?.mp hx
  have hwindow :
      (windowAfter (x.run e.args)).map (fun t => t.setWidth 32) = windowOf e.args
      (x.hist ++ x.toks) := by
    rw [← started_inputIds hlen, ← windowAfter_runOf]
    unfold runOf PrefillEntry.run
    rw [started_inputIds hlen]
  have hall : x.hist ++ x.toks = x.req.prompt.take (x.req.cachedLen + x.len) := by
    rw [← hist_append_take (le_refl x.len), take_of_length_le (length_toks hlen).le]
  rw [h.prefill_pool hpre, indexPut_of_notMem (hapart x hx), ← hall, ← hwindow]
  refine indexPut_get (k := k) hlive ?_ ?_ ?_
  · rw [committed, length_map, length_map, length_map]
  · rw [List.getElem?_map, hk]
    rfl
  · rw [committed, List.getElem?_map, List.getElem?_map, hk]
    rfl

theorem PleInv.prefill_track (hctx : e.args.ngramSize - 1 ≤ chunkSize) (hx : x ∈ batch) {dst : ℕ}
    (hdst : x.started.trackDst = some dst) :
    (w.prefill e batch).contextPool dst = windowOf e.args
        (x.req.prompt.take (x.req.cachedLen + x.started.trackChunks * chunkSize)) := by
  obtain ⟨-, htrack, -⟩ := h.prefill_nodup hpre
  obtain ⟨-, -, hlen⟩ := h.entry hpre hx
  obtain ⟨k, hk⟩ := mem_iff_getElem?.mp hx
  obtain ⟨-, hpos⟩ := trackDst_mem hdst
  have hlens :
      (toksOf (batch.map fun x => x.run e.args)).map List.length = batch.map PrefillEntry.len := by
    rw [map_map, map_map]
    refine map_congr_left fun y hy => ?_
    rw [Function.comp_apply, Function.comp_apply, ← length_toks (h.entry hpre hy).2.2]
    exact (length_map _).trans length_hashedIds
  have hrow := @trackRows_mem _ x _ 0 k _ hlens hk (by rw [trackRow_eq, hdst, zero_add]; rfl)
  obtain ⟨i, hi⟩ := mem_iff_getElem?.mp hrow
  have hboundary : chunkSize ≤ x.started.trackChunks * chunkSize := Nat.le_mul_of_pos_left _ hpos
  have hinside := trackChunks_le x
  rw [h.prefill_pool hpre]
  refine indexPut_get (k := i) htrack ?_ ?_ ?_
  · rw [← trackRows_snd 0, length_map, length_map, length_map]
  · rw [← trackRows_snd 0, List.getElem?_map, hi]
    rfl
  · rw [List.getElem?_map, List.getElem?_map, hi, Option.map_some, Option.map_some]
    congr 1
    rw [← hist_append_take hinside]
    refine @windowOf_boundary _ _ _ _ ((windowOf e.args x.hist).map long) _ _ ?_ ?_
      (hctx.trans hboundary)
    · rw [List.getElem?_map, hk]
      rfl
    · rwa [length_toks hlen]

theorem PleInv.prefill_keep {slot : ℕ} (hslot : ∀ x ∈ batch, slot ∉ x.req.slots) :
    (w.prefill e batch).contextPool slot = w.contextPool slot := by
  rw [h.prefill_pool hpre, indexPut_of_notMem, indexPut_of_notMem, (h.restored_spec hpre).2]
  · exact fun x hx _ heq => hslot x hx (heq ▸ linearSlot_mem)
  · intro hmem
    obtain ⟨x, hx, rfl⟩ := List.mem_map.mp hmem
    exact hslot x hx linearSlot_mem
  · intro hmem
    obtain ⟨x, hx, hdst⟩ := List.mem_filterMap.mp hmem
    exact hslot x hx (trackSlot_mem (r := x.started) (trackDst_mem hdst).1)

theorem PleInv.prefill_width (slot : ℕ) :
    ((w.prefill e batch).contextPool slot).length = e.args.ngramSize - 1 := by
  rw [h.prefill_pool hpre]
  refine indexPut_width (indexPut_width h.restored_width ?_ fun v hv => ?_) ?_ (fun v hv => ?_) slot
  · rw [committed, length_map, length_map, length_map]
  · obtain ⟨run, hrun, rfl⟩ := List.mem_map.mp hv
    have hwidth := (h.prefills hpre).width run hrun
    unfold windowAfter
    rw [length_map, length_drop, length_append, hwidth, Nat.add_sub_cancel]
  · rw [← trackRows_snd 0, length_map, length_map, length_map]
  · obtain ⟨row, -, rfl⟩ := List.mem_map.mp hv
    rw [length_map, length_range]

end Committed

/-! ### The requests -/

theorem done_tokenPool (hok : ReqOk e w x.uid x.req) (hids : x.req.inputIds = x.hist)
    (hlen : x.req.cachedLen + x.len ≤ x.req.prompt.length) {i : ℕ} {t : BitVec 32}
    (hget : x.done.inputIds[i]? = some t) :
    x.done.tokenPool i = t := by
  have hdone := prefillDone x
  rw [hdone.inputIds] at hget
  have hi : i < x.req.cachedLen + x.len := by
    have hlt := (List.getElem?_eq_some_iff.mp hget).1
    rw [length_take] at hlt
    omega
  rw [hdone.known i hi]
  by_cases hold : i < x.req.cachedLen
  · have hget' : x.req.inputIds[i]? = some t := by
      rw [hids, PrefillEntry.hist, List.getElem?_take_of_lt hold, ← hget, List.getElem?_take_of_lt
        hi]
    have hmax := hok.prompt_le.2
    exact (writeRow_of_lt hold).trans (hok.known i t hget' (by omega))
  · refine writeRow_of_get (not_lt.mp hold) ?_
    rw [List.getElem?_drop, Nat.add_sub_cancel' (not_lt.mp hold), hget]

theorem done_frozen {len : ℕ} (hlast : x.done.lastTrack = some len) :
    len = x.req.cachedLen + x.started.trackChunks * chunkSize ∧
      ∃ slot, x.started.trackDst = some slot ∧ x.done.trackSlot (!x.done.nextTrack) =
        some slot := by
  have hdone := prefillDone x
  have htrack :
      x.done.trackSlot (!x.done.nextTrack) = x.started.trackSlot (!x.started.track.nextTrack) := by
    unfold PleReq.trackSlot
    rw [hdone.pingPong, hdone.nextTrack]
    rfl
  rw [hdone.lastTrack] at hlast
  rw [htrack]
  unfold PleReq.track at hlast ⊢
  by_cases hnone : x.started.trackChunks < 1 ∨ x.started.pingPong = none
  · rw [if_pos hnone] at hlast
    exact absurd hlast.symm (Option.some_ne_none len)
  · rw [if_neg hnone] at hlast ⊢
    obtain ⟨pair, hpair⟩ := Option.ne_none_iff_exists'.mp fun heq => hnone (Or.inr heq)
    refine ⟨(Option.some.inj hlast).symm, ?_⟩
    unfold PleReq.trackDst PleReq.trackSlot
    rw [if_neg fun hlt => hnone (Or.inl hlt), Bool.not_not, hpair]
    exact ⟨_, rfl, rfl⟩

/-- **A prefill** keeps what holds in every state. -/
theorem PleInv.prefill (hctx : e.args.ngramSize - 1 ≤ chunkSize) (h : PleInv e padSlot w)
    (hpre : w.Prefillable e batch) :
    PleInv e padSlot (w.prefill e batch) := by
  show PleInv e padSlot (w.forward batch PrefillEntry.uid PrefillEntry.done
    (fun x => if x.isLast then some x.token else none) (w.prefill e batch).contextPool)
  refine h.forward PrefillEntry.req hpre.pending hpre.nodup (fun x hx => (hpre.entry x hx).1)
    (fun x _ => ?_) (h.prefill_width hpre) (fun slot _ hslot => h.prefill_keep hpre hslot)
    fun x hx => ?_
  · have hdone := prefillDone x
    unfold PleReq.slots
    rw [hdone.linearSlot, hdone.pingPong]
  · obtain ⟨hok, hlt, hlen⟩ := h.entry hpre hx
    obtain ⟨hids, hnone⟩ := hok.prefilling hlt
    have hdone := prefillDone x
    have hmax := hok.prompt_le.2
    have hlenids : x.done.inputIds.length = x.req.cachedLen + x.len := by
      rw [hdone.inputIds, length_take, min_eq_left hlen]
    have htokens := forward_tokensOf_of_mem w PrefillEntry.done
      (fun x : PrefillEntry => if x.isLast then some x.token else none)
      (w.prefill e batch).contextPool hpre.nodup hx
    rw [hnone, nil_append] at htokens
    have hknown : ∀ i t, x.done.inputIds[i]? = some t → x.done.tokenPool i = t :=
      fun i t hget => done_tokenPool hok hids hlen hget
    refine ⟨?_, ?_, fun i t hget _ => hknown i t hget, ?_, fun _ _ => ?_, fun src hsrc =>
      ?_, fun len hlast => ?_, fun haborted => ?_⟩
    · rw [hdone.prompt, hdone.maxDeviceLen]
      exact hok.prompt_le
    · rw [hdone.cachedLen, hdone.maxDeviceLen]
      omega
    · -- the last chunk turns the request into a decoding one
      cases hlast : x.isLast with
      | true =>
        have hall : x.req.cachedLen + x.len = x.req.prompt.length := beq_iff_eq.mp hlast
        rw [hlast, if_pos rfl, Option.toList_some] at htokens
        refine .decode ?_ ?_ ?_ (fun j t hj hlt => ?_) fun himage hlt => ?_
        · rw [hdone.prompt, hdone.cachedLen, hall]
        · rw [hdone.deviceLen, hdone.cachedLen]
        · rw [htokens, hlenids, hdone.deviceLen]
          rfl
        · rw [htokens] at hj
          cases j with
          | zero =>
            obtain rfl := Option.some.inj hj
            rw [add_zero, hlenids, hdone.maxDeviceLen] at hlt
            rw [add_zero, hlenids]
            exact hdone.token hlast hlt
          | succ j => exact absurd hj.symm (Option.some_ne_none t)
        · rw [hdone.cachedLen, hdone.maxDeviceLen] at hlt
          rw [hdone.cachedLen, hdone.token hlast hlt]
          exact hpre.token himage x hx
      | false =>
        have hne : x.req.cachedLen + x.len ≠ x.req.prompt.length := beq_eq_false_iff_ne.mp hlast
        rw [hlast, if_neg Bool.false_ne_true, Option.toList_none] at htokens
        refine .prefill ?_ ?_ htokens
        · rw [hdone.inputIds, hdone.prompt, hdone.cachedLen]
        · rw [hdone.prompt, hdone.cachedLen]
          omega
    · -- the live slot holds the window behind the chunk
      show (w.prefill e batch).contextPool x.done.linearSlot = _
      have hseq : x.done.seq x.done.cachedLen = x.req.prompt.take (x.req.cachedLen + x.len) := by
        rw [← hdone.inputIds]
        apply ext_getElem?
        intro i
        unfold PleReq.seq
        rw [List.getElem?_map, hdone.cachedLen]
        by_cases hi : i < x.req.cachedLen + x.len
        · have hget := List.getElem?_eq_getElem (l := x.done.inputIds) (by rwa [hlenids])
          rw [List.getElem?_range hi, Option.map_some, hget, hknown i _ hget]
        · rw [List.getElem?_eq_none (by rw [length_range]; omega), List.getElem?_eq_none (by omega)]
          rfl
      rw [hdone.linearSlot, h.prefill_live hpre hx, hseq]
    · rw [hdone.restoreSrc] at hsrc
      exact absurd hsrc.symm (Option.some_ne_none src)
    · -- the frozen slot holds the window behind the last whole track chunk
      obtain ⟨rfl, slot, hdst, hslot⟩ := done_frozen hlast
      have hinside := trackChunks_le x
      refine ⟨hlenids ▸ Nat.add_le_add_left hinside _, slot, hslot, ?_⟩
      show (w.prefill e batch).contextPool slot = _
      rw [h.prefill_track hpre hctx hx hdst, hdone.inputIds, take_take,
        min_eq_left (Nat.add_le_add_left hinside _)]
    · rw [hdone.aborted, (hpre.entry x hx).2.1] at haborted
      exact absurd haborted Bool.false_ne_true

end Ple

end FreeToken
