import FreeToken.Models.Qwen4Exp.Equiv.PlePrefill
import FreeToken.Models.Qwen4Exp.Equiv.PleDecode

/-!
# The two backends read the same rows

* `PleInv.step`, `PleReached.inv`: what holds in every state.
* `PleInv.prefillRows_eq`, `PleInv.decodeRows_eq`: the rows of a batch, from the disk and on the
  device.
* `ple_backends_agree`: they are the same in every state that is reached.
-/

namespace FreeToken

open List Option

namespace Ple

variable {e : NGramEmbedding} {d : DiskRowTable} {padSlot : ℕ} {w w' : PleWorld}

theorem PleInv.step (hsize : e.args.ngramSize = 3) (h : PleInv e padSlot w) (hstep : PleStep e padSlot w w') :
    PleInv e padSlot w' := by
  cases hstep with
  | admitted hnew hsettled hprompt hlen hhit hr hslots => exact h.admitted hsettled hprompt hlen hhit hr hslots
  | undo hreq hnew => exact h.remove _
  | prefill hpre => exact h.prefill (by rw [hsize]; decide) hpre
  | decode hdec => exact h.decode (by rw [hsize]; decide) hdec
  | gone hpending hreq => exact h.pop hpending fun r hr => absurd (hreq.symm.trans hr).symm (some_ne_none r)
  | chunked hpending hreq haborted => exact h.pop hpending fun _ _ => rfl
  | token hpending hreq haborted => exact h.token hpending hreq
  | finished hpending hreq haborted => exact h.finished hpending hreq _ _
  | abortedFree hpending hreq haborted => exact h.abortedFree hpending hreq haborted _ _
  | drained hpending =>
    rename_i pending
    have htokens : ∀ uid, ({ w with pending } : PleWorld).tokensOf uid = w.tokensOf uid := by
      intro uid
      unfold PleWorld.tokensOf
      rw [hpending]
      rfl
    have hcount : ∀ uid, ({ w with pending } : PleWorld).countOf uid = w.countOf uid := by
      intro uid
      unfold PleWorld.countOf
      rw [hpending]
      rfl
    have hle := h.pending_le
    have hnodup := h.pending_nodup
    rw [hpending] at hle hnodup
    exact ⟨h.width, (Nat.le_succ _).trans hle, fun batch hbatch =>
      hnodup batch (mem_cons_of_mem _ hbatch), h.own, h.apart, h.snapshots, fun uid r hr =>
      (h.reqs uid r hr).frame (htokens uid) (hcount uid).le (fun _ _ => rfl) fun _ hx _ => hx⟩
  | donate hreq hlast hfrozen hslot hr => exact h.donate hreq hlast hfrozen hslot hr
  | known hreq => exact h.mark hreq (Or.inl rfl) fun haborted => (h.reqs _ _ hreq).aborted haborted
  | abort hpending hreq => exact h.mark hreq (Or.inr rfl) fun _ =>
    (countOf_le h.pending_nodup).trans hpending
  | abortedIdle hreq hsettled hstarted => exact h.abortedIdle hreq hsettled hstarted _ _
  | evict hsnapshots hfree => exact h.evict hsnapshots hfree

theorem PleReached.inv (hsize : e.args.ngramSize = 3) (h : PleReached e padSlot w) :
    PleInv e padSlot w := by
  induction h with
  | start hwidth =>
    refine ⟨hwidth, Nat.zero_le 2, fun batch hbatch => absurd hbatch not_mem_nil, fun uid r hr =>
      ?_, fun uid uid' r r' hr => ?_, fun x hx => absurd hx not_mem_nil, fun uid r hr => ?_⟩
    · exact absurd hr.symm (some_ne_none r)
    · exact absurd hr.symm (some_ne_none r)
    · exact absurd hr.symm (some_ne_none r)
  | step _ hstep ih => exact ih.step hsize hstep

/-! ### Rows -/

theorem PleInv.prefillRows_eq (hdisk : DiskOf e d) (h : PleInv e padSlot w)
    {batch : List PrefillEntry}
    (hpre : w.Prefillable e batch) :
    PleWorld.prefillRows d batch = some (e.rowIds (w.prefillMeta e batch)) := by
  have hruns := h.prefills hpre
  rw [hdisk.size] at hruns
  have hrun : ∀ x ∈ batch, d.prefillRun x.started.inputIds x.started.cachedLen x.started.deviceLen =
      some ((x.run e.args).1 ++ (x.run e.args).2) := by
    intro x hx
    obtain ⟨-, -, hlen⟩ := h.entry hpre hx
    have hids : x.started.inputIds = x.req.prompt.take (x.req.cachedLen + x.len) := rfl
    have hcached : x.started.cachedLen = x.req.cachedLen := rfl
    have hdevice : x.started.deviceLen = x.req.cachedLen + x.len := rfl
    have hknown : x.req.cachedLen ≤ (x.req.prompt.take (x.req.cachedLen + x.len)).length := by
      rw [length_take, min_eq_left hlen]
      exact Nat.le_add_right _ _
    rw [hids, hcached, hdevice, prefillRun_eq hdisk hknown, take_take,
      min_eq_left (Nat.le_add_right _ _), take_take, min_self]
    rfl
  unfold PleWorld.prefillRows
  rw [mapM_eq_map hrun, map_some, rowIds_prefill hdisk hruns, flatMap_map, flatMap_map]

theorem length_runRows {context toks : List (BitVec 64)} (hcontext : context.length = 2) :
    (d.runRows (context ++ toks)).length = toks.length := by
  rw [runRows_eq hcontext, length_map, length_range]

theorem PleInv.decodeRows_eq (hdisk : DiskOf e d) (h : PleInv e padSlot w)
    {batch : List DecodeEntry} {pads : List BatchReq} (hdec : w.Decodable e padSlot batch pads) :
    PleWorld.decodeRows d batch =
      some ((e.rowIds (w.decodeMeta e batch pads)).take batch.length) := by
  have hruns := h.decodes hdec
  rw [hdisk.size] at hruns
  have hrun :
      ∀ x ∈ batch, d.decodeRun x.req.inputIds x.req.deviceLen
      (x.req.tokenPool (x.req.deviceLen - 1)) = some ((x.run e.args).1 ++ (x.run e.args).2) := by
    intro x hx
    obtain ⟨hok, -, hdevice, -, -, hsmall, -, hknown⟩ := h.decoding hdec hx
    rw [hdevice, Nat.add_sub_cancel, decodeRun_eq hdisk hknown hsmall, Nat.add_sub_cancel,
      ← hok.seq_eq hknown hok.cached_le]
    rfl
  have hcontext : ∀ x : DecodeEntry, (x.run e.args).1.length = 2 := by
    intro x
    show ((windowOf e.args _).map long).length = 2
    rw [length_map, length_windowOf, hdisk.size]
  -- a row for every request, and those of the padding behind them
  have hlen :
      (batch.flatMap fun x => d.runRows ((x.run e.args).1 ++ (x.run e.args).2)).length =
      batch.length := by
    rw [length_flatMap]
    have hone :
        batch.map (fun x => (d.runRows ((x.run e.args).1 ++ (x.run e.args).2)).length) =
        batch.map fun _ => 1 := by
      refine map_congr_left fun x _ => ?_
      rw [length_runRows (hcontext x)]
      exact (length_map _).trans length_hashedIds
    rw [hone, map_const', sum_replicate_nat, mul_one]
  unfold PleWorld.decodeRows
  rw [mapM_eq_map hrun, map_some, rowIds_decode hdisk hruns, flatMap_append, flatMap_map,
    flatMap_map, take_left' hlen]

/-- **The two backends agree.** In every state that is reached, with whatever requests, prefix hits,
anchors and evictions, the rows that the store reads for a batch are those that the device hashes
from the contexts. -/
theorem ple_backends_agree (hdisk : DiskOf e d) (h : PleReached e padSlot w) :
    (∀ batch, w.Prefillable e batch → PleWorld.prefillRows d batch =
      some (e.rowIds (w.prefillMeta e batch))) ∧
      ∀ batch pads, w.Decodable e padSlot batch pads →
        PleWorld.decodeRows d batch =
          some ((e.rowIds (w.decodeMeta e batch pads)).take batch.length) :=
  ⟨fun _ hpre => (h.inv hdisk.size).prefillRows_eq hdisk hpre, fun _ _ hdec =>
    (h.inv hdisk.size).decodeRows_eq hdisk hdec⟩

/-! ### An image behind a boundary -/

/-- Two heads, with 2 as the boundary and 9 as the image. -/
def imageEmbedding : NGramEmbedding := ⟨⟨3, 1, 2, some 9⟩, [3, 5, 7], [11, 13], [0, 11]⟩

def imageTable : DiskRowTable where
  store :=
    { files := [⟨replicate 48 0, false⟩]
      extents := [⟨0, 0⟩]
      rowsPerExtent := 24
      rowBytes := 2
      rowStride := 2
      mult0 := 3
      mult1 := 5
      mult2 := 7
      sizes := [11, 13]
      offsets := [0, 11]
      eos := 2
      length_offsets := rfl
      rowBytes_le := by decide
      extents_fit := fun e he => by
        rw [mem_singleton.mp he]
        exact ⟨⟨replicate 48 0, false⟩, rfl, by decide⟩
      heads_fit := by decide }
  eosTokenId := 2
  imageTokenId := some 9

theorem imageTable_of : DiskOf imageEmbedding imageTable :=
    ⟨rfl, rfl, rfl, rfl, rfl, rfl, rfl, rfl, fun _ => by decide⟩

/-- A request with an image pad, that has slot 1. -/
def imageReq : PleReq :=
  ⟨[7, 2, 1000001], [], writeRow (fun _ => 0) 0 [], 0, 0, 8, 1, none, false, none, none, false⟩

/-- Its prompt is prefilled at once, and 5 is sampled. -/
def imagePrefill : PrefillEntry := ⟨0, imageReq, 3, 5⟩

def imageDecode : DecodeEntry := ⟨0, imagePrefill.done, 4, false⟩

def imageWorld : PleWorld :=
  ⟨Function.update (fun _ => none) 0 (some imageReq), [], fun _ => [0, 0], []⟩

theorem imageWorld_reached : PleReached imageEmbedding 0 imageWorld := by
  refine (@PleReached.start imageEmbedding 0 (fun _ => [0, 0]) fun _ => rfl).step
    (@PleStep.admitted _ _ _ 0 [7, 2, 1000001] (fun _ => 0) 8 1 none none imageReq rfl
    (fun batch hbatch => absurd hbatch not_mem_nil) (cons_ne_nil _ _) (by decide)
    (fun x hx => absurd hx.symm (some_ne_none x)) rfl ⟨nodup_singleton _, fun slot hslot => ?_⟩)
  rw [mem_singleton.mp hslot]
  exact ⟨one_ne_zero, fun uid r hr => absurd hr.symm (some_ne_none r), fun x hx =>
    absurd hx not_mem_nil⟩

theorem imageWorld_prefillable : imageWorld.Prefillable imageEmbedding [imagePrefill] := by
  refine ⟨Nat.zero_le 1, nodup_singleton _, fun x hx => ?_, fun _ x hx => ?_⟩
  · rw [mem_singleton.mp hx]
    exact ⟨rfl, rfl, by decide, by decide⟩
  · rw [mem_singleton.mp hx]
    decide

theorem imageWorld_decodable :
    (imageWorld.prefill imageEmbedding [imagePrefill]).Decodable imageEmbedding 0 [imageDecode]
    [⟨0, 0, [0]⟩] := by
  refine ⟨le_refl 1, nodup_singleton _, fun x hx => ?_, fun x hx hanchor => ?_, fun _ x hx =>
    ?_, fun pad hpad => ?_⟩
  · rw [mem_singleton.mp hx]
    exact ⟨rfl, rfl, by decide, by decide⟩
  · rw [mem_singleton.mp hx] at hanchor
    exact absurd hanchor Bool.false_ne_true
  · rw [mem_singleton.mp hx]
    decide
  · rw [mem_singleton.mp hpad]
    exact ⟨rfl, rfl⟩

/-- The rows of the image, and of the token behind it. -/
theorem ple_backends_agree_image :
    PleWorld.prefillRows imageTable [imagePrefill] =
        some (imageEmbedding.rowIds (imageWorld.prefillMeta imageEmbedding [imagePrefill])) ∧
      PleWorld.decodeRows imageTable [imageDecode] = some ((imageEmbedding.rowIds
        ((imageWorld.prefill imageEmbedding [imagePrefill]).decodeMeta imageEmbedding [imageDecode]
          [⟨0, 0, [0]⟩])).take 1) :=
  ⟨(ple_backends_agree imageTable_of imageWorld_reached).1 _ imageWorld_prefillable,
    (ple_backends_agree imageTable_of (imageWorld_reached.step (.prefill imageWorld_prefillable))).2
      _ _ imageWorld_decodable⟩

end Ple

end FreeToken
