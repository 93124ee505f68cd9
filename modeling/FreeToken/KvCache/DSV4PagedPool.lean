import FreeToken.Lib.IndexPut
import Mathlib.Data.List.Dedup
import Mathlib.Data.List.Sort

/-!
# The window tier of the DeepSeek-V4 paged pool

Window pages are bound one to one to full pages through `full_to_window`; the row past the end is a
permanent `-1`.  The compressor-state ring is addressed by the window slot (`stateLoc`).  The last
full page and the last window page are the reserved dummy pages, bound to each other.
-/

namespace FreeToken

structure FreeListAllocator where
  capacity : ℕ
  pageUnit : ℕ
  freeUnits : List ℕ

namespace FreeListAllocator

def freshFree (capacity pageUnit : ℕ) : List ℕ :=
  (List.range (capacity / pageUnit)).map (· * pageUnit)

/-- The constructor: the capacity is a multiple of the unit. -/
def create (capacity pageUnit : ℕ) : Option FreeListAllocator :=
  if capacity % pageUnit = 0 then some ⟨capacity, pageUnit, freshFree capacity pageUnit⟩ else none

/-- The tail of the list is handed out.  `none` is the "out of slots" error. -/
def alloc (a : FreeListAllocator) (nUnits : ℕ) : Option (List ℕ × FreeListAllocator) :=
  if a.freeUnits.length < nUnits then none
  else
    let keep := a.freeUnits.length - nUnits
    some (a.freeUnits.drop keep, { a with freeUnits := a.freeUnits.take keep })

def free (a : FreeListAllocator) (units : List ℕ) : FreeListAllocator :=
  { a with freeUnits := a.freeUnits ++ units }

end FreeListAllocator

/-- Compress-state ring slots for each window page. -/
def ringSizeForRatio (ratio : ℕ) : Option ℕ :=
  if ratio = 4 then some 8 else if ratio = 128 then some 128 else none

/-- The sizes of the two page tables, in pages: both have at least the dummy page. -/
structure DSV4PoolSizes where
  P : ℕ
  numPages : ℕ
  nWinPages : ℕ
  P_pos : 0 < P
  numPages_pos : 0 < numPages
  nWinPages_pos : 0 < nWinPages

namespace DSV4PoolSizes

def fullToken (s : DSV4PoolSizes) : ℕ := s.numPages * s.P

def nWinSlots (s : DSV4PoolSizes) : ℕ := s.nWinPages * s.P

end DSV4PoolSizes

/-- The slots of the given pages, page by page. -/
def pageSlots (P : ℕ) (bases : List ℕ) : List ℕ := bases.flatMap (List.range' · P)

structure DSV4PagedKVCache where
  sizes : DSV4PoolSizes
  fullToWindow : ℕ → ℤ
  winAlloc : FreeListAllocator

namespace DSV4PagedKVCache

def P (c : DSV4PagedKVCache) : ℕ := c.sizes.P

/-- The tokens of a full page get those of a window page. -/
def bindWindowPages (P : ℕ) (fullToWindow : ℕ → ℤ) (fullPageBase windowPageBase : ℕ) :
    Option (ℕ → ℤ) :=
  if fullPageBase % P = 0 ∧ windowPageBase % P = 0 then
    some (indexPut fullToWindow (List.range' fullPageBase P)
      ((List.range' windowPageBase P).map Nat.cast))
  else none

/-- Nothing is mapped but the dummy page, and every other window page is
free. -/
def initPagedState (sizes : DSV4PoolSizes) : Option DSV4PagedKVCache := do
  let winAlloc ← FreeListAllocator.create (sizes.nWinSlots - sizes.P) sizes.P
  let fullToWindow ← bindWindowPages sizes.P (fun _ => -1) (sizes.fullToken - sizes.P)
    (sizes.nWinSlots - sizes.P)
  return ⟨sizes, fullToWindow, winAlloc⟩

def rebuild (_ : DSV4PagedKVCache) (sizes : DSV4PoolSizes) : Option DSV4PagedKVCache :=
  initPagedState sizes

/-- Binds one window page to each full page.  `none` is an assertion that fails or the
exhausted allocator. -/
def allocSwa (c : DSV4PagedKVCache) (fullIndices : List ℕ) : Option DSV4PagedKVCache :=
  let n := fullIndices.length
  if n = 0 then some c
  else if n % c.P ≠ 0 then none
  else
    let fbases := (List.range (n / c.P)).map fun k => fullIndices.getD (k * c.P) 0
    if fullIndices ≠ pageSlots c.P fbases then none
    else
      match c.winAlloc.alloc fbases.length with
      | none => none
      | some (wbases, winAlloc) =>
        some { c with
          winAlloc
          fullToWindow := indexPut c.fullToWindow (pageSlots c.P fbases)
            ((pageSlots c.P wbases).map Nat.cast) }

/-- Unbinds the pages of the given full locations and returns their window pages.
`none` is the assertion that every touched page comes with `P` locations. -/
def freeSwa (c : DSV4PagedKVCache) (fullIndices : List ℤ) : Option DSV4PagedKVCache :=
  let fi := (fullIndices.filter (0 ≤ ·)).map Int.toNat
  if fi.length = 0 then some c
  else
    let pages := fi.map fun i => i / c.P * c.P
    let fbases := pages.dedup.insertionSort (· ≤ ·)
    if ∃ b ∈ fbases, pages.count b ≠ c.P then none
    else
      let live := (fbases.map c.fullToWindow).filter (0 ≤ ·)
      some { c with
        fullToWindow := indexFill c.fullToWindow (pageSlots c.P fbases) (-1)
        winAlloc := c.winAlloc.free (live.map fun w => w.toNat / c.P * c.P) }

/-- Where the compressor keeps the state of a window slot. -/
def stateLoc (windowSlot : ℤ) (ringSize P : ℕ) : ℤ :=
  if windowSlot < 0 then -1 else windowSlot / P * ringSize + windowSlot % ringSize

end DSV4PagedKVCache

end FreeToken
