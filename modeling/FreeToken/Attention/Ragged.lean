import FreeToken.Lib.Lanes

/-!
# The rows of a forward

A forward runs some tokens of each of its requests.  The tensors of a batch are ragged: the rows of
a request are consecutive, and `cuSeqlens` says where they start.
-/

namespace FreeToken

/-- A request in a forward: its tokens from `cachedLen` on, the raw index keys that the model has
for them, and the row of the page table. -/
structure Chunk (α : Type) where
  tableIdx : ℕ
  cachedLen : ℕ
  raws : List α
  pageTable : ℕ → ℕ

/-- What the index kernels get of a batch. -/
structure Ragged where
  tokenToReq : ℕ → ℤ
  cuSeqlens : ℕ → ℤ
  ringSlots : ℕ → ℤ
  positions : ℕ → ℤ
  outLoc : ℕ → ℕ
  numRows : ℕ
  numRequests : ℕ

namespace Chunk

variable {α : Type}

def extendLen (c : Chunk α) : ℕ := c.raws.length

def positions (c : Chunk α) : List ℕ := List.range' c.cachedLen c.extendLen

def outLoc (c : Chunk α) : List ℕ := c.positions.map c.pageTable

def cuSeqlens : List (Chunk α) → ℕ → ℕ
  | _, 0 => 0
  | [], _ + 1 => 0
  | c :: cs, j + 1 => c.extendLen + cuSeqlens cs j

/-- `token_to_req`, for requests that are numbered from `j` on. -/
def tokenToReq (j : ℕ) : List (Chunk α) → List ℕ
  | [] => []
  | c :: cs => List.replicate c.extendLen j ++ tokenToReq (j + 1) cs

def rawKeys (cs : List (Chunk α)) : List α := cs.flatMap raws

/-- `prepare_metadata`, and the positions and slots of the batch. -/
def prepareMetadata (cs : List (Chunk α)) : Ragged where
  tokenToReq row := (((tokenToReq 0 cs)[row]?).getD 0 : ℕ)
  cuSeqlens j := cuSeqlens cs j
  ringSlots j := ((cs[j]?).elim 0 tableIdx : ℕ)
  positions row := (((cs.flatMap positions)[row]?).getD 0 : ℕ)
  outLoc row := ((cs.flatMap outLoc)[row]?).getD 0
  numRows := cuSeqlens cs cs.length
  numRequests := cs.length

end Chunk

end FreeToken
