import Mathlib.Algebra.Order.Ring.Int
import Mathlib.Order.WithBot

/-!
# The selection of the pooled indexer

Every `kpool` consecutive tokens are a pool.  The indexer picks pools by their scores; the selection
has the rows of their tokens, and those of the open pool at the end.

* `indexerSelectPrefill`, `indexerSelectDecode`: the pools that are picked; `-1` stands for none.
* `expandAndTail`: the rows of the pools, and the bound of the entries that count.
* `selectPrefill`, `selectDecode`: the selections of a chunk's queries, and of a decode step.
-/

namespace FreeToken.Kpool

variable {κ : Type} [LinearOrder κ]

abbrev Topk (κ : Type) := ℕ → List (WithBot κ) → List ℕ

variable (topk : Topk κ)

/-! ### Picks -/

/-- The places that are picked, as pools; those from `live` on are none. -/
def livePicks (live : ℕ) (picks : List ℕ) : List ℤ :=
  picks.map fun p => if live ≤ p then -1 else (p : ℤ)

/-- `indexer_select_prefill`, with one row of scores for each query from `startPos` on. -/
def indexerSelectPrefill (scores : List (List κ)) (startPos ratio k : ℕ) : List (List ℤ) :=
  scores.mapIdx fun s row =>
    let live := (startPos + (s + 1)) / ratio
    let masked : List (WithBot κ) :=
      row.mapIdx fun blk score => if live ≤ blk then ⊥ else WithBot.some score
    livePicks live (topk (min k row.length) masked)

/-- `indexer_select_decode`, for one request; the scores from `valid` on are the least. -/
def indexerSelectDecode (scores : List (WithBot κ)) (valid k : ℕ) : List ℤ :=
  livePicks valid (topk (min k scores.length) scores)

/-! ### Rows -/

/-- The positions of a selection: the open pool, and then the picked ones. -/
def positions (kpool : ℕ) (picks : List ℤ) (qPos : ℕ) : List ℤ :=
  let hist : List ℤ := picks.flatMap fun p => (List.range kpool).map
    fun o : ℕ => if p < 0 then -1 else p * kpool + o
  let tailStart := (qPos + 1) / kpool * kpool
  let tail : List ℤ := (List.range (kpool - 1)).map
    fun o : ℕ => if tailStart + o ≤ qPos then ((tailStart + o : ℕ) : ℤ) else -1
  tail ++ hist

/-- `_expand_and_tail`, for one query: the selection and its bound.  An index that is out of the
rows raises. -/
def expandAndTail (kpool : ℕ) (picks : List ℤ) (rows : List ℤ) (qPos : ℕ) : Option (List ℤ × ℕ) :=
  ((positions kpool picks qPos).mapM fun p => (rows[(max p 0).toNat]?).map fun row =>
    if p < 0 then -1 else row).map fun sel =>
    (sel, (kpool - 1) + min ((qPos + 1) / kpool) picks.length * kpool)

/-! ### The two variants -/

/-- One turn over 512 queries, from `s0` on. -/
def selectChunk (kpool kSel : ℕ) (logits : ℕ → List κ) (rows : List ℤ) (positions : List ℕ)
    (startPos m s0 : ℕ) :
    Option (List (List ℤ × ℕ)) :=
  let s1 := min (s0 + 512) m
  let scores := (List.range' s0 (s1 - s0)).map logits
  let picks := indexerSelectPrefill topk scores (startPos + s0) kpool kSel
  (picks.zip ((positions.drop s0).take (s1 - s0))).mapM fun q => expandAndTail kpool q.1 rows q.2

/-- `_select_prefill`; `logits` are the scores of a query's pools. -/
def selectPrefill (kpool selectK : ℕ) (logits : ℕ → List κ) (rows : List ℤ) (positions : List ℕ)
    (startPos : ℕ) :
    Option (List (List ℤ × ℕ)) :=
  let nPoolsTotal := rows.length / kpool
  let kSel := min selectK (max nPoolsTotal 1)
  let m := positions.length
  if nPoolsTotal = 0 then positions.mapM fun q => expandAndTail kpool (List.replicate kSel (-1))
    rows q
  else
    ((List.range' 0 ((m + 511) / 512) 512).mapM fun s0 => selectChunk topk kpool kSel logits rows
      positions startPos m s0).map List.flatten

/-- `_decode`, for one request: `rows` is the staged row of the page table, and `scores` are those
of its complete pools. -/
def selectDecode (kpool selectK : ℕ) (score : ℕ → κ) (rows : List ℤ) (kvlen : ℕ) :
    Option (List ℤ × ℕ) :=
  let nPools := kvlen / kpool
  let staged :
    List (WithBot κ) := (List.range (rows.length / kpool)).map fun p => if nPools ≤ p then ⊥
    else WithBot.some (score p)
  let kSel := min selectK staged.length
  expandAndTail kpool (indexerSelectDecode topk staged nPools kSel) rows (kvlen - 1)

end FreeToken.Kpool
