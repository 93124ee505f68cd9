import FreeToken.Core
import FreeToken.Message.Classes

/-!
# Replies to sampled tokens

What the scheduler makes of each sampled token of a request: whether it ends the request, and the
message that is sent to the detokenizer.
-/

namespace FreeToken

/-- `SamplingParams`, as far as a reply reads them. -/
structure SamplingParams where
  ignoreEos : Bool := false
  stopStrs : List Text := []
deriving DecidableEq, Repr

variable {η : Type} (decode : List Token → Text) (eosTokenIds : List Token)
  (params : SamplingParams)

/-- `max(len(s) for s in stop_strs)`. -/
def maxChars (stopStrs : List Text) : ℕ := (stopStrs.map List.length).foldl max 0

/-- The first stop string that the text of the last generated tokens contains. -/
def matchStopStr (req : Req η) : Option Text :=
  let promptLen := req.maxDeviceLen - req.outputLen
  if req.inputIds.length ≤ promptLen then none
  else
    let tailStart := max promptLen (req.inputIds.length - (maxChars params.stopStrs + 1))
    let tail := decode (req.inputIds.drop tailStart)
    params.stopStrs.find? fun s => s <:+: tail

/-- The reply to a request that has got a token. -/
def replyTo (req : Req η) (nextToken : Token) : DetokenizeMsg :=
  let hitLength := !req.canDecode
  let hitEos := !params.ignoreEos && nextToken ∈ eosTokenIds
  let matchedStop := if !hitEos ∧ params.stopStrs ≠ [] then matchStopStr decode params req else none
  let finished := hitLength || hitEos || matchedStop.isSome
  { uid := req.uid, nextToken, finished
    finishReason :=
      if finished then some (if hitEos || matchedStop.isSome then .stop else .length) else none
    matchedStop
    stopStrs := if params.stopStrs = [] then none else some params.stopStrs }

/-- A request while its tokens are processed: none once it has finished, or an assertion has failed.
-/
structure Replies (η : Type) where
  req : Option (Req η)
  msgs : List DetokenizeMsg := []

/-- What `_process_last_data` does with a sampled token of a request.  By then the request may be
launched again, so its `device_len` is read. -/
def Replies.token (r : Replies η) (deviceLen : ℕ) (nextToken : Token) : Replies η :=
  match r.req with
  | none => r
  | some req =>
    match { req with deviceLen }.appendHost nextToken with
    | none => { r with req := none }
    | some req =>
      let msg := replyTo decode eosTokenIds params req nextToken
      { req := if msg.finished then none else some req, msgs := r.msgs ++ [msg] }

/-- The replies to the tokens of a request, each with the `device_len` that it meets. -/
def replyTokens (req : Req η) (tokens : List (ℕ × Token)) : Replies η :=
  tokens.foldl (fun r t => r.token decode eosTokenIds params t.1 t.2) { req := some req }

end FreeToken
