import FreeToken.Models.Qwen4Exp.PleWorld
import FreeToken.Models.Qwen4Exp.Equiv.PleBatch
import FreeToken.Lib.MapM

/-!
# The context of a request

* `windowOf`: the tokens in front of a position, as the context of a slot should be.
* `prefills_build`, `decodes_build`: the metadata of a batch.
* `prefillRun_eq`, `decodeRun_eq`: the host cuts the same window.
-/

namespace FreeToken

open List

variable {ids : List (BitVec 32)} {position deviceLen : ℕ} {eos : BitVec 32}

namespace Ple

variable {e : NGramEmbedding} {d : DiskRowTable}

def hashedIds (args : Qwen4ExpArgs) (ids : List (BitVec 32)) : List (BitVec 32) :=
  args.imageTokenId.elim ids (restorePlaceholder ids)

/-- The tokens in front of a position, behind boundaries. -/
def windowOf (args : Qwen4ExpArgs) (hist : List (BitVec 32)) : List (BitVec 32) :=
  (List.replicate (args.ngramSize - 1) args.ngramBoundaryTokenId ++ hashedIds args hist).drop
    hist.length

variable {args : Qwen4ExpArgs} {hist toks : List (BitVec 32)}

theorem hashedIds_eq_map (args : Qwen4ExpArgs) :
    ∃ f : BitVec 32 → BitVec 32, ∀ ids, hashedIds args ids = ids.map f := by
  unfold hashedIds
  cases args.imageTokenId with
  | none => exact ⟨id, fun ids => (map_id ids).symm⟩
  | some image => exact ⟨_, fun ids => rfl⟩

@[simp] theorem length_hashedIds : (hashedIds args hist).length = hist.length := by
  obtain ⟨f, hf⟩ := hashedIds_eq_map args
  rw [hf, length_map]

theorem hashedIds_append :
    hashedIds args (hist ++ toks) = hashedIds args hist ++ hashedIds args toks := by
  obtain ⟨f, hf⟩ := hashedIds_eq_map args
  rw [hf, hf, hf, map_append]

theorem hashedIds_flatMap {α : Type} {xs : List α} {g : α → List (BitVec 32)} :
    hashedIds args (xs.flatMap g) = xs.flatMap fun x => hashedIds args (g x) := by
  induction xs with
  | nil =>
    obtain ⟨f, hf⟩ := hashedIds_eq_map args
    exact hf []
  | cons x xs ih => rw [flatMap_cons, hashedIds_append, ih, flatMap_cons]

@[simp] theorem length_windowOf : (windowOf args hist).length = args.ngramSize - 1 := by
  unfold windowOf
  rw [length_drop, length_append, length_replicate, length_hashedIds, Nat.add_sub_cancel]

theorem windowOf_nil :
    windowOf args [] = List.replicate (args.ngramSize - 1) args.ngramBoundaryTokenId := by
  obtain ⟨f, hf⟩ := hashedIds_eq_map args
  unfold windowOf
  rw [hf, map_nil, append_nil]
  rfl

/-- The window moves on with the tokens. -/
theorem windowOf_append :
    windowOf args (hist ++ toks) = (windowOf args hist ++ hashedIds args toks).drop
    toks.length := by
  unfold windowOf
  rw [hashedIds_append, ← append_assoc, ← drop_append_of_le_length, drop_drop, length_append]
  rw [length_append, length_hashedIds]
  exact Nat.le_add_left _ _

theorem setWidth_long (t : BitVec 32) : (long t).setWidth 32 = t := by
  unfold long
  refine BitVec.eq_of_getLsbD_eq fun i hi => ?_
  have hi' : i < 64 := by omega
  rw [BitVec.getLsbD_setWidth, BitVec.getLsbD_signExtend, if_pos hi, decide_eq_true hi,
    decide_eq_true hi', Bool.true_and, Bool.true_and]

theorem map_setWidth_long (ids : List (BitVec 32)) :
    (ids.map long).map (fun t => t.setWidth 32) = ids := by
  rw [map_map]
  exact (map_congr_left fun t _ => setWidth_long t).trans (map_id ids)

/-! ### Metadata -/

/-- The run of a request, of its context. -/
def runOf (args : Qwen4ExpArgs) (context : List (BitVec 32)) (r : BatchReq) : PleRun :=
  (context.map long, (hashedIds args r.inputIds).map long)

/-- The window behind a run. -/
theorem windowAfter_runOf {r : BatchReq} :
    (windowAfter (runOf args (windowOf args hist) r)).map (fun t => t.setWidth 32) = windowOf args
    (hist ++ r.inputIds) := by
  unfold windowAfter runOf
  rw [← map_append, length_map, length_hashedIds, ← map_drop, map_setWidth_long, windowOf_append]

/-- The context of a request of a prefill. -/
def prefillContext (args : Qwen4ExpArgs) (pool : ContextPool) (r : BatchReq) : List (BitVec 32) :=
  if r.cachedLen = 0 then List.replicate (pool r.slot).length args.ngramBoundaryTokenId
    else pool r.slot

theorem toksOf_runOf {reqs : List BatchReq} {context : BatchReq → List (BitVec 32)} :
    (hashedIds args (reqs.flatMap BatchReq.inputIds)).map long =
      (toksOf (reqs.map fun r => runOf args (context r) r)).flatten := by
  rw [hashedIds_flatMap, map_flatMap, flatMap_def]
  unfold toksOf
  rw [map_map]
  rfl

theorem prefills_build (reqs : List BatchReq) (pool : ContextPool)
    (hwidth : ∀ r ∈ reqs, (pool r.slot).length = args.ngramSize - 1) :
    Prefills (buildPleMetadata false reqs args pool) (args.ngramSize - 1)
      (reqs.map fun r => runOf args (prefillContext args pool r) r) := by
  have hlens : reqs.map (fun r => r.inputIds.length) =
      (toksOf (reqs.map fun r => runOf args (prefillContext args pool r) r)).map List.length := by
    rw [map_map, map_map]
    apply map_congr_left
    intro r _
    simp only [Function.comp_apply, runOf, length_map, length_hashedIds]
  refine ⟨rfl, toksOf_runOf, ?_, hlens, ?_, fun run hrun => ?_⟩
  · show (reqs.map fun r => r.inputIds.length).scanl _ 0 = _
    rw [hlens]
  · show List.zipWith _ (reqs.map fun r => r.cachedLen == 0)
      ((reqs.map BatchReq.slot).map fun slot => (pool slot).map long) = _
    rw [map_map, map_map, zipWith_map, zipWith_self]
    apply map_congr_left
    intro r _
    simp only [Function.comp_apply, runOf, prefillContext, beq_iff_eq, length_map]
    split_ifs
    · rw [map_replicate]
    · rfl
  · obtain ⟨r, hr, rfl⟩ := List.mem_map.mp hrun
    unfold runOf prefillContext
    rw [length_map]
    split_ifs
    · rw [length_replicate, hwidth r hr]
    · exact hwidth r hr

theorem decodes_build (reqs : List BatchReq) (pool : ContextPool)
    (hwidth : ∀ r ∈ reqs, (pool r.slot).length = args.ngramSize - 1)
    (hsingle : ∀ r ∈ reqs, r.inputIds.length = 1) :
    Decodes (buildPleMetadata true reqs args pool) (args.ngramSize - 1)
      (reqs.map fun r => runOf args (pool r.slot) r) := by
  refine ⟨rfl, toksOf_runOf, ?_, fun run hrun => ?_, fun run hrun => ?_⟩
  · show (reqs.map BatchReq.slot).map (fun slot => (pool slot).map long) = _
    rw [map_map, map_map]
    rfl
  · obtain ⟨r, hr, rfl⟩ := List.mem_map.mp hrun
    exact (length_map _).trans (hwidth r hr)
  · obtain ⟨r, hr, rfl⟩ := List.mem_map.mp hrun
    exact ((length_map _).trans length_hashedIds).trans (hsingle r hr)

/-! ### The host -/

theorem tokenBefore_eq {back : ℕ} (h : position ≤ ids.length)
    (hback : 0 < back) :
    tokenBefore ids position back eos =
      some (if back ≤ position then ids.getD (position - back) 0 else eos) := by
  unfold tokenBefore
  split_ifs with hle
  · have hlt : position - back < ids.length := by omega
    rw [getD_eq_getElem?_getD, List.getElem?_eq_getElem hlt, Option.getD_some]
  · rfl

theorem context_eq (h : position ≤ ids.length) :
    context ids position eos = some [if 2 ≤ position then ids.getD (position - 2) 0 else eos,
      if 1 ≤ position then ids.getD (position - 1) 0 else eos] := by
  unfold context
  rw [tokenBefore_eq h Nat.two_pos, tokenBefore_eq h Nat.one_pos]
  rfl

/-- The host cuts the window in front of a position. -/
theorem pleContext_eq (hdisk : DiskOf e d) (h : position ≤ ids.length) :
    d.pleContext ids position = some (windowOf e.args (ids.take position)) := by
  obtain ⟨f, hf, heos, hcontext⟩ : ∃ f : BitVec 32 → BitVec 32,
      (∀ ids, hashedIds e.args ids = ids.map f) ∧
      f e.args.ngramBoundaryTokenId = e.args.ngramBoundaryTokenId ∧
      ∀ ids position, d.pleContext ids position =
        (context ids position d.eosTokenId).map fun ctx => ctx.map f := by
    unfold DiskRowTable.pleContext hashedIds
    have heos := hdisk.eos_lt
    rw [hdisk.image]
    cases himage : e.args.imageTokenId with
    | none =>
      refine ⟨id, fun ids => (map_id ids).symm, rfl, fun ids position => ?_⟩
      simp only [map_id, Option.map_id']
    | some image =>
      rw [himage] at heos
      exact ⟨_, fun ids => rfl, if_neg (not_le.mpr (heos rfl)), fun ids position => rfl⟩
  rw [hcontext, context_eq h, Option.map_some, hdisk.eos]
  congr 1
  have hwindow :
    windowOf e.args [] = [e.args.ngramBoundaryTokenId, e.args.ngramBoundaryTokenId] := by
    rw [windowOf_nil, hdisk.size]
    rfl
  have hget : ∀ i < ids.length, ids[i]? = some (ids.getD i 0) := by
    intro i hi
    rw [getD_eq_getElem?_getD, List.getElem?_eq_getElem hi, Option.getD_some]
  -- with fewer than two tokens the window is filled with boundaries
  rcases position with _ | _ | n
  · rw [take_zero, hwindow]
    show [f e.args.ngramBoundaryTokenId, f e.args.ngramBoundaryTokenId] = _
    rw [heos]
  · have htake : ids.take (0 + 1) = [] ++ [ids.getD 0 0] := by
      rw [take_add_one, hget 0 h]
      rfl
    rw [htake, windowOf_append, hwindow, hf]
    show [f e.args.ngramBoundaryTokenId, f (ids.getD 0 0)] =
      [e.args.ngramBoundaryTokenId, f (ids.getD 0 0)]
    rw [heos]
  · have htake : ids.take (n + 1 + 1) = ids.take n ++ [ids.getD n 0, ids.getD (n + 1) 0] := by
      rw [take_add_one, take_add_one, hget n (by omega), hget (n + 1) (by omega), append_assoc]
      rfl
    have hlen : (windowOf e.args (ids.take n)).length = 2 := by
      rw [length_windowOf, hdisk.size]
    rw [htake, windowOf_append, hf]
    show _ = (windowOf e.args (ids.take n) ++ [f (ids.getD n 0), f (ids.getD (n + 1) 0)]).drop 2
    rw [drop_left' hlen]
    rfl

theorem prefillRun_eq (hdisk : DiskOf e d) {cachedLen : ℕ} (h : cachedLen ≤ ids.length) :
    d.prefillRun ids cachedLen deviceLen = some ((windowOf e.args (ids.take cachedLen)).map long ++
      (hashedIds e.args ((ids.take deviceLen).drop cachedLen)).map long) := by
  unfold DiskRowTable.prefillRun DiskRowTable.pleIds
  rw [pleContext_eq hdisk h, Option.map_some, map_append, hdisk.image]
  rfl

theorem decodeRun_eq (hdisk : DiskOf e d) (h : deviceLen - 1 ≤ ids.length)
    {token : BitVec 32} (htoken : e.args.imageTokenId.isSome → token.toInt < mmPadShift) :
    d.decodeRun ids deviceLen token = some ((windowOf e.args (ids.take (deviceLen - 1))).map long ++
      (hashedIds e.args [token]).map long) := by
  have hsame : hashedIds e.args [token] = [token] := by
    unfold hashedIds
    cases himage : e.args.imageTokenId with
    | none => rfl
    | some image =>
      rw [himage] at htoken
      show [if _ then _ else _] = _
      rw [if_neg (not_le.mpr (htoken rfl))]
  unfold DiskRowTable.decodeRun
  rw [pleContext_eq hdisk h, Option.map_some, map_append, hsame]

end Ple

end FreeToken
