import FreeToken.KvCache.DSV4PagedPool
import FreeToken.Lib.Bisect
import Mathlib.Data.Rat.Floor

/-!
# The cost model of the DSV4 pool

The tiers are sized from the number of pages of the full history, and the solver takes the largest
number whose exact bytes are in the budget.
-/

namespace FreeToken

namespace Dsv4CostModel

/-- `round`: to the nearest integer, and to the even one from the middle. -/
def pyRound (q : ℚ) : ℤ :=
  let f := ⌊q⌋
  if q - f < 1 / 2 then f
  else if 1 / 2 < q - f then f + 1
  else if f % 2 = 0 then f
  else f + 1

/-- What the cost model reads of the arguments of the model. -/
structure DSV4Args where
  headDim : ℕ
  indexHeadDim : ℕ
  compressRatios : List ℕ
  nLayers : ℕ

namespace DSV4Args

variable (args : DSV4Args)

def ratios : List ℕ := args.compressRatios.take args.nLayers

def kvBytes : ℕ := args.headDim * 2

def indexBytes : ℕ := args.indexHeadDim * 2

def stateBytes (ratio : ℕ) : ℕ := 2 * (1 + if ratio = 4 then 1 else 0) * args.headDim * 4

def idxStateBytes : ℕ := 2 * 2 * args.indexHeadDim * 4

end DSV4Args

variable (args : DSV4Args) (swaRatio : ℚ) (P : ℕ)

/-- A layer of `dsv4_cache_per_page`. -/
def layerPerPage (ratio : ℕ) : Option ℤ :=
  let window := pyRound (swaRatio * P) * args.kvBytes
  if ratio = 0 then some window
  else
    (ringSizeForRatio ratio).map fun ring : ℕ =>
      let index := if ratio = 4 then (P / 4 : ℕ) * args.indexBytes + pyRound (swaRatio * ring) *
        args.idxStateBytes else 0
      window + (P / ratio : ℕ) * args.kvBytes + index + pyRound (swaRatio * ring) *
        args.stateBytes ratio

def dsv4CachePerPage : Option ℤ := (args.ratios.mapM (layerPerPage args swaRatio P)).map List.sum

/-- `DSV4PoolSizes`, layer by layer. -/
structure DSV4PoolSizes where
  P : ℕ
  swaRatio : ℚ
  fullToken : ℕ
  nWinSlots : ℕ
  nWinPages : ℕ
  cmpBlocks : List (Option ℕ)
  idxBlocks : List (Option ℕ)
  stateSlots : List (Option ℕ)
  ringSizes : List (Option ℕ)
  idxStateSlots : List (Option ℕ)

/-- The ring of a layer; a layer without a ratio has none. -/
def layerRing (ratio : ℕ) : Option (Option ℕ) :=
  if ratio = 0 then some none else (ringSizeForRatio ratio).map some

/-- `dsv4_pool_sizes`, with the pages of the window. -/
def dsv4PoolSizes (numPages nWinPages : ℕ) : Option DSV4PoolSizes :=
  let fullToken := numPages * P
  let nWinPages := min nWinPages numPages
  (args.ratios.mapM layerRing).map fun rings =>
    { P, swaRatio, fullToken, nWinPages
      nWinSlots := nWinPages * P
      cmpBlocks := args.ratios.map fun ratio => if ratio = 0 then none else some (fullToken / ratio)
      idxBlocks := args.ratios.map fun ratio => if ratio = 4 then some (fullToken / 4) else none
      stateSlots := rings.map fun ring => ring.map fun size => nWinPages * size
      ringSizes := rings
      idxStateSlots := List.zipWith (fun ratio ring => if ratio = 4 then ring.map fun size =>
        nWinPages * size else none) args.ratios rings }

def layerEntry (xs : List (Option ℕ)) (layer : ℕ) : Option ℕ := xs[layer]?.join

/-- The bytes of a layer of `dsv4_pool_bytes`. -/
def layerBytes (sizes : DSV4PoolSizes) (nScratch ratio layer : ℕ) : Option ℕ :=
  if ratio = 0 then some 0
  else
    (layerEntry sizes.cmpBlocks layer).bind fun cmp =>
      (layerEntry sizes.stateSlots layer).bind fun state =>
      let total := (cmp + nScratch) * args.kvBytes + (state + 1) * args.stateBytes ratio
      if ratio = 4 then
        (layerEntry sizes.idxBlocks layer).bind fun idx =>
          (layerEntry sizes.idxStateSlots layer).map fun idxState =>
          total + (idx + nScratch) * args.indexBytes + (idxState + 1) * args.idxStateBytes
      else some total

def dsv4PoolBytes (sizes : DSV4PoolSizes) (nScratch : ℕ) : Option ℕ :=
  (args.ratios.zipIdx.mapM fun x => layerBytes args sizes nScratch x.1 x.2).map fun layers =>
    args.ratios.length * sizes.nWinSlots * args.kvBytes + (sizes.fullToken + 1) * 8 + layers.sum

/-! ### The solver -/

inductive SolveError where
  /-- There is no ring for a ratio. -/
  | noRing
  /-- The budget cannot fit the minimal pool. -/
  | budget
deriving DecidableEq, Repr

variable (available : ℤ) (floorWinPages nScratch : ℕ)

/-- The pages of the window for a candidate. -/
def winPages (num : ℕ) : ℕ :=
  (max (floorWinPages : ℤ) ((pyRound (swaRatio * num * P) + P - 1) / P)).toNat

/-- `_sizes`. -/
def solveSizes (num : ℕ) : Option DSV4PoolSizes :=
  dsv4PoolSizes args swaRatio P num (winPages swaRatio P floorWinPages num)

def fitsBudget (num : ℕ) : Option Bool :=
  (solveSizes args swaRatio P floorWinPages num).bind fun sizes =>
    (dsv4PoolBytes args sizes nScratch).map fun bytes : ℕ => decide ((bytes : ℤ) ≤ available)

/-- `dsv4_solve_num_pages`; both loops have the fuel. -/
def dsv4SolveNumPages (fuel : ℕ) : Option (Except SolveError DSV4PoolSizes) :=
  let lo := max floorWinPages 2
  -- a candidate has a cost where the first one has
  let fits :=
    fun num => (fitsBudget args swaRatio P available floorWinPages nScratch num).getD false
  match fitsBudget args swaRatio P available floorWinPages nScratch lo, dsv4CachePerPage args 0
    P with
  | some true, some perPage =>
    (growHi fits fuel (max lo (available / max 1 perPage).toNat)).bind fun hi =>
      (bisect fits fuel lo hi).map fun num =>
        (solveSizes args swaRatio P floorWinPages num).elim (.error .noRing) .ok
  | some false, _ => some (.error .budget)
  | _, _ => some (.error .noRing)

end Dsv4CostModel

end FreeToken
