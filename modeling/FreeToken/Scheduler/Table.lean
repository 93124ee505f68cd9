import FreeToken.Core

/-!
# Page tables and page accounting

The page table of the running requests, and the part of `CacheManager` that keeps the free pages.
A page of `pageSize` slots is named by its first slot.
-/

namespace FreeToken

/-! ### Table rows -/

structure TableManager where
  freeSlots : List ℕ
deriving DecidableEq, Repr

namespace TableManager

/-- A manager of `maxRunningReqs` rows. -/
def init (maxRunningReqs : ℕ) : TableManager := ⟨List.range maxRunningReqs⟩

/-- Pop the last free row; `none` if there is none. -/
def allocate (t : TableManager) : Option (TableManager × ℕ) :=
  t.freeSlots.getLast?.map fun idx => (⟨t.freeSlots.dropLast⟩, idx)

def free (t : TableManager) (idx : ℕ) : TableManager := ⟨t.freeSlots ++ [idx]⟩

end TableManager

/-! ### The page table -/

/-- The slot of each position of each row. -/
abbrev PageTable := ℕ → ℕ → Slot

namespace PageTable

/-- `page_table[idx, lo:hi]`. -/
def row (t : PageTable) (idx lo hi : ℕ) : List Slot := (List.range' lo (hi - lo)).map (t idx)

/-- `page_table[idx, pos : pos + len(vals)] = vals`. -/
def write (t : PageTable) (idx pos : ℕ) (vals : List Slot) : PageTable := fun i p =>
  if i = idx ∧ pos ≤ p then vals.getD (p - pos) (t i p) else t i p

end PageTable

/-- `indices[:: page_size]`. -/
def stride (ps : ℕ) (indices : List Slot) : List Slot :=
  (List.range (divCeil indices.length ps)).filterMap fun k => indices[k * ps]?

def pageToToken (ps : ℕ) (pages : List Slot) : List Slot :=
  pages.flatMap fun page => (List.range ps).map (page + ·)

/-- Each entry of `allocationInfo` takes its pages from `allocated`. -/
def writePageTable (ps : ℕ) : PageTable → List Slot → List (ℕ × ℕ × ℕ) → PageTable
  | t, _, [] => t
  | t, allocated, (idx, firstPage, lastPage) :: allocationInfo =>
    let length := lastPage * ps - firstPage * ps
    writePageTable ps (t.write idx (firstPage * ps) (allocated.take length))
      (allocated.drop length) allocationInfo

/-- The `allocation_info` of `allocate_paged`: the rows, and the pages each row needs. -/
def allocationInfo {η : Type} (ps : ℕ) (reqs : List (Req η)) : List (ℕ × ℕ × ℕ) :=
  reqs.filterMap fun req =>
    let firstPage := divCeil req.cachedLen ps
    let lastPage := divCeil req.deviceLen ps
    if firstPage < lastPage then some (req.tableIdx, firstPage, lastPage) else none

/-- The `needed_pages` of `allocate_paged`. -/
def neededPages (info : List (ℕ × ℕ × ℕ)) : ℕ := (info.map fun i => i.2.2 - i.2.1).sum

/-! ### Free pages -/

/-- The page accounting of `CacheManager`. -/
structure PageState where
  pageSize : ℕ
  numPages : ℕ
  freeSlots : List Slot
  pageTable : PageTable
  /-- The pages freed inside a `lazy_free_region`, while there is one. -/
  lazyFreeList : Option (List Slot) := none

namespace PageState

def init (pageSize numPages : ℕ) (pageTable : PageTable) : PageState :=
  { pageSize, numPages, pageTable
    freeSlots := (List.range numPages).map (· * pageSize) }

variable (s : PageState)

def free (indices : List Slot) : PageState :=
  match s.lazyFreeList with
  | none => { s with freeSlots := s.freeSlots ++ stride s.pageSize indices }
  | some l => { s with lazyFreeList := some (l ++ stride s.pageSize indices) }

/-- Enter a `lazy_free_region`. -/
def enterLazyFree : PageState := { s with lazyFreeList := some [] }

/-- Leave a `lazy_free_region`. -/
def exitLazyFree : PageState :=
  { s with freeSlots := s.freeSlots ++ s.lazyFreeList.getD [], lazyFreeList := none }

/-- Write the pages that `allocate_paged` has allocated. -/
def writePages {η : Type} (pages : List Slot) (reqs : List (Req η)) : PageState :=
  { s with pageTable := writePageTable s.pageSize s.pageTable (pageToToken s.pageSize pages)
             (allocationInfo s.pageSize reqs) }

/-- `page_table[idx, pos : pos + len(vals)] = vals`. -/
def writeRow (idx pos : ℕ) (vals : List Slot) : PageState :=
  { s with pageTable := s.pageTable.write idx pos vals }

def paddedTail {η : Type} (req : Req η) (start : ℕ) : List Slot :=
  s.pageTable.row req.tableIdx start (divCeil req.cachedLen s.pageSize * s.pageSize)

end PageState

end FreeToken
