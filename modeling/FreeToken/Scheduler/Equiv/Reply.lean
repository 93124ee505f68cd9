import FreeToken.Scheduler.Reply

/-!
# What the replies say

The replies to the tokens of a request, in terms of the tokens that it has generated.
-/

namespace FreeToken

open List

variable {η : Type} (decode : List Token → Text) (eosTokenIds : List Token)
  (params : SamplingParams)

/-- The last generated tokens, in whose text the stop strings are looked for. -/
def stopWindow (ids : List Token) : List Token :=
  ids.drop (ids.length - (maxChars params.stopStrs + 1))

def hitsEos (t : Token) : Bool := !params.ignoreEos && t ∈ eosTokenIds

/-- The stop string that is found when token `t` comes after `ids`. -/
def matchedBy (ids : List Token) (t : Token) : Option Text :=
  if hitsEos eosTokenIds params t then none
  else params.stopStrs.find? fun s => s <:+: decode (stopWindow params (ids ++ [t]))

/-- Token `t` after `ids` ends a request of at most `maxDeviceLen` tokens whose `device_len` is
`deviceLen`. -/
def endsWith (maxDeviceLen deviceLen : ℕ) (ids : List Token) (t : Token) : Bool :=
  maxDeviceLen ≤ deviceLen || hitsEos eosTokenIds params t ||
    (matchedBy decode eosTokenIds params ids t).isSome

variable {decode eosTokenIds params} {req r : Req η} {prompt ids : List Token} {t : Token}

theorem matchStopStr_eq (hlen : req.maxDeviceLen = prompt.length + req.outputLen)
    (hids : req.inputIds = prompt ++ (ids ++ [t])) :
    matchStopStr decode params req =
      params.stopStrs.find? fun s => s <:+: decode (stopWindow params (ids ++ [t])) := by
  have hprompt : req.maxDeviceLen - req.outputLen = prompt.length := by omega
  have hlength : req.inputIds.length = prompt.length + (ids ++ [t]).length := by
    rw [hids, length_append]
  have hpos : 0 < (ids ++ [t]).length := by simp
  have hdrop :
      ∀ k, (prompt ++ (ids ++ [t])).drop
      (max prompt.length (prompt.length + (ids ++ [t]).length - k)) =
      (ids ++ [t]).drop ((ids ++ [t]).length - k) := by
    intro k
    have hk : max prompt.length (prompt.length + (ids ++ [t]).length - k) =
        prompt.length + ((ids ++ [t]).length - k) := by omega
    rw [hk, drop_length_add_append]
  unfold matchStopStr
  simp only [hprompt, hlength]
  rw [if_neg (by omega), hids, hdrop]
  rfl

theorem replyTo_matchedStop (hlen : req.maxDeviceLen = prompt.length + req.outputLen)
    (hids : req.inputIds = prompt ++ (ids ++ [t])) :
    (replyTo decode eosTokenIds params req t).matchedStop = matchedBy decode eosTokenIds params ids
    t := by
  have hmatch := @matchStopStr_eq _ decode params _ _ _ _ hlen hids
  show (if (!hitsEos eosTokenIds params t) = true ∧ params.stopStrs ≠ [] then _ else none) = _
  rw [hmatch]
  unfold matchedBy
  by_cases heos : hitsEos eosTokenIds params t
  · simp [heos]
  · by_cases hnil : params.stopStrs = []
    · simp [hnil]
    · simp [heos, hnil]

theorem replyTo_finished (hchunked : req.chunked = false)
    (hlen : req.maxDeviceLen = prompt.length + req.outputLen)
    (hids : req.inputIds = prompt ++ (ids ++ [t])) :
    (replyTo decode eosTokenIds params req t).finished =
      endsWith decode eosTokenIds params req.maxDeviceLen req.deviceLen ids t := by
  have hmatched := @replyTo_matchedStop _ decode eosTokenIds params _ _ _ _ hlen hids
  have hlength : (!req.canDecode) = decide (req.maxDeviceLen ≤ req.deviceLen) := by
    rw [Bool.eq_iff_iff]
    simp [Req.canDecode, Req.remainLen, hchunked]
  show (!req.canDecode || hitsEos eosTokenIds params t ||
    (replyTo decode eosTokenIds params req t).matchedStop.isSome) = _
  rw [hmatched, hlength]
  rfl

/-! ### The tokens of a request -/

def stepTokens (steps : List (ℕ × Token)) : List Token := steps.map (·.2)

@[simp]
theorem stepTokens_snoc (steps : List (ℕ × Token)) (x : ℕ × Token) :
    stepTokens (steps ++ [x]) = stepTokens steps ++ [x.2] := by simp [stepTokens]

theorem replyTokens_snoc (steps : List (ℕ × Token)) (x : ℕ × Token) :
    replyTokens decode eosTokenIds params req (steps ++ [x]) =
      (replyTokens decode eosTokenIds params req steps).token decode eosTokenIds params x.1
      x.2 := by
  rw [replyTokens, foldl_append]
  rfl

/-- A new request, before its first token. -/
structure Fresh (req : Req η) : Prop where
  chunked : req.chunked = false
  maxDeviceLen : req.maxDeviceLen = req.inputIds.length + req.outputLen

variable {steps : List (ℕ × Token)} {x : ℕ × Token}

/-- A request that has got some tokens and has not finished. -/
structure Running (decode : List Token → Text) (eosTokenIds : List Token) (params : SamplingParams)
    (req : Req η) (steps : List (ℕ × Token)) (r : Req η) : Prop where
  req_eq : r = { req with inputIds := req.inputIds ++ stepTokens steps, deviceLen := r.deviceLen }
  nextToken : (replyTokens decode eosTokenIds params req steps).msgs.map (·.nextToken) =
    stepTokens steps
  unfinished : ∀ msg ∈ (replyTokens decode eosTokenIds params req steps).msgs, msg.finished = false
  unmatched : ∀ msg ∈ (replyTokens decode eosTokenIds params req steps).msgs, msg.matchedStop = none

/-- The message of a token, for a request that is running. -/
def replyAt (decode : List Token → Text) (eosTokenIds : List Token) (params : SamplingParams)
    (req : Req η) (steps : List (ℕ × Token)) (x : ℕ × Token) : DetokenizeMsg :=
  replyTo decode eosTokenIds params
    { req with inputIds := req.inputIds ++ (stepTokens steps ++ [x.2]), deviceLen := x.1 } x.2

theorem Fresh.replyAt_matchedStop (h : Fresh req) :
    (replyAt decode eosTokenIds params req steps x).matchedStop =
    matchedBy decode eosTokenIds params (stepTokens steps) x.2 :=
  replyTo_matchedStop h.maxDeviceLen rfl

theorem Fresh.replyAt_finished (h : Fresh req) :
    (replyAt decode eosTokenIds params req steps x).finished =
    endsWith decode eosTokenIds params req.maxDeviceLen x.1 (stepTokens steps) x.2 :=
  replyTo_finished h.chunked h.maxDeviceLen rfl

/-- A token of a request that is running: it is answered, unless the request has all its tokens. -/
theorem token_running (hfresh : Fresh req) (hrun : Running decode eosTokenIds params req steps r)
    (hreq : (replyTokens decode eosTokenIds params req steps).req = some r) :
    replyTokens decode eosTokenIds params req (steps ++ [x]) =
      if steps.length < req.outputLen then
        { req :=
            if (replyAt decode eosTokenIds params req steps x).finished then none
            else some { req with inputIds := req.inputIds ++ (stepTokens steps ++ [x.2]), deviceLen := x.1 }
          msgs := (replyTokens decode eosTokenIds params req steps).msgs ++
            [replyAt decode eosTokenIds params req steps x] }
      else { replyTokens decode eosTokenIds params req steps with req := none } := by
  have happend : ({ r with deviceLen := x.1 } : Req η).appendHost x.2 =
      if steps.length < req.outputLen then
        some { req with inputIds := req.inputIds ++ (stepTokens steps ++ [x.2]), deviceLen := x.1 }
      else none := by
    have hiff : (req.inputIds ++ stepTokens steps).length + 1 ≤ req.maxDeviceLen ↔
        steps.length < req.outputLen := by
      rw [hfresh.maxDeviceLen, length_append, stepTokens, length_map]
      omega
    rw [hrun.req_eq]
    simp only [Req.appendHost, hfresh.chunked, Bool.false_eq_true, ↓reduceIte, hiff, append_assoc]
  rw [replyTokens_snoc, Replies.token, hreq]
  simp only [happend]
  by_cases hlt : steps.length < req.outputLen
  · simp only [if_pos hlt]
    rfl
  · simp only [if_neg hlt]

theorem running_of_req (hfresh : Fresh req)
    (hreq : (replyTokens decode eosTokenIds params req steps).req = some r) :
    Running decode eosTokenIds params req steps r := by
  induction steps using reverseRecOn generalizing r with
  | nil =>
    obtain rfl : req = r := Option.some.inj hreq
    exact
      { req_eq := by simp [stepTokens]
        nextToken := rfl
        unfinished := fun _ hmem => absurd hmem not_mem_nil
        unmatched := fun _ hmem => absurd hmem not_mem_nil }
  | append_singleton steps x ih =>
    cases hprev : (replyTokens decode eosTokenIds params req steps).req with
    | none =>
      rw [replyTokens_snoc, Replies.token, hprev] at hreq
      simp [hprev] at hreq
    | some r' =>
      have hrun := ih hprev
      have htoken := @token_running _ decode eosTokenIds params _ _ _ x hfresh hrun hprev
      rw [htoken] at hreq
      by_cases hlt : steps.length < req.outputLen
      · rw [if_pos hlt] at hreq htoken
        by_cases hfin : (replyAt decode eosTokenIds params req steps x).finished
        · simp [hfin] at hreq
        · rw [Bool.not_eq_true] at hfin
          simp only [hfin, Bool.false_eq_true, ↓reduceIte, Option.some.injEq] at hreq
          subst hreq
          have hmatched : (replyAt decode eosTokenIds params req steps x).matchedStop = none := by
            rw [hfresh.replyAt_finished, endsWith] at hfin
            rw [hfresh.replyAt_matchedStop]
            simp only [Bool.or_eq_false_iff] at hfin
            exact Option.not_isSome_iff_eq_none.mp (by simp [hfin.2])
          -- what holds of the messages so far and of the new one holds of all
          have hmem : ∀ p : DetokenizeMsg → Prop,
              (∀ msg ∈ (replyTokens decode eosTokenIds params req steps).msgs, p msg) →
              p (replyAt decode eosTokenIds params req steps x) →
              ∀ msg ∈ (replyTokens decode eosTokenIds params req (steps ++ [x])).msgs, p msg := by
            intro p hall hlast msg hmsg
            rw [htoken] at hmsg
            rcases mem_append.mp hmsg with hmsg | hmsg
            · exact hall msg hmsg
            · rw [mem_singleton.mp hmsg]
              exact hlast
          exact
            { req_eq := by rw [stepTokens_snoc]
              nextToken := by
                rw [htoken, map_append, hrun.nextToken, stepTokens_snoc]
                rfl
              unfinished := hmem _ hrun.unfinished hfin
              unmatched := hmem _ hrun.unmatched hmatched }
      · simp [hlt] at hreq

theorem replyTokens_finished (hreq : (replyTokens decode eosTokenIds params req steps).req = none) :
    replyTokens decode eosTokenIds params req (steps ++ [x]) = replyTokens decode eosTokenIds params
      req steps := by
  rw [replyTokens_snoc, Replies.token, hreq]

theorem replyTokens_uid (hfresh : Fresh req) :
    ∀ msg ∈ (replyTokens decode eosTokenIds params req steps).msgs, msg.uid = req.uid := by
  induction steps using reverseRecOn with
  | nil => exact fun _ hmem => absurd hmem not_mem_nil
  | append_singleton steps x ih =>
    cases hprev : (replyTokens decode eosTokenIds params req steps).req with
    | none =>
      rw [replyTokens_finished hprev]
      exact ih
    | some r =>
      have hrun := running_of_req hfresh hprev
      rw [token_running hfresh hrun hprev]
      by_cases hlt : steps.length < req.outputLen
      · rw [if_pos hlt]
        intro msg hmsg
        rcases mem_append.mp hmsg with hmsg | hmsg
        · exact ih msg hmsg
        · rw [mem_singleton.mp hmsg]
          rfl
      · rw [if_neg hlt]
        exact ih

end FreeToken
