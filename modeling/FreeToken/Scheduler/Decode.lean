import FreeToken.Core

/-!
# `DecodeManager`

The requests that decode.  `running_reqs` is a set of objects; the model keeps them in a list, each
once.
-/

namespace FreeToken

variable {η : Type}

structure DecodeManager (η : Type) where
  pageSize : ℕ
  runningReqs : List (Req η) := []
deriving DecidableEq, Repr

namespace DecodeManager

variable (d : DecodeManager η)

/-- What the running requests may still grow by, one page reserved for each. -/
def inflightTokens : ℕ :=
  d.runningReqs.foldr (fun req n => req.remainLen + n) 0 + (d.pageSize - 1) * d.runningReqs.length

/-- `filter_reqs`, for requests that are not running yet. -/
def filterReqs (reqs : List (Req η)) : DecodeManager η :=
  { d with runningReqs := (d.runningReqs ++ reqs).filter Req.canDecode }

def uidLE (a b : Req η) : Bool := a.uid ≤ b.uid

/-- All running requests, by uid; `none` is no batch. -/
def scheduleNextBatch : Option (List (Req η)) :=
  if d.runningReqs = [] then none else some (d.runningReqs.mergeSort uidLE)

end DecodeManager

end FreeToken
