import FreeToken.Attention.Ragged

/-!
# The index entries of the QSA and of the kpool indexer

Both keep one entry for each group of `ratio` tokens, in a slab that shadows the KV pages, and the
raw members of the open group of a request in a ring.  A forward pools the groups that it closes,
and then refreshes the ring.

One program of `_compress_qsa_groups_kernel` pools the group that ends at its row.  The members at
positions of this forward are raw rows, the older ones are in the ring of the request.  What a
masked load gives is 0.

One program of `_compress_kpool_groups_kernel` pools the group that ends at its row, from keys and
from gates.  The members at positions of this forward are raw rows, the older ones are in the tail
rings of the request.

What the scheduler and the caches do between the forwards of a layer: a request takes a slot of the
request table and the pages of a prefix hit, gets fresh pages, runs its tokens in forwards of any
size beside other requests, and leaves.  A full page may be published for later hits.  A token is
its raw member, whatever that is.

* `planIndexWrites`: where the rows of a forward go.
* `updateIndexCache`, `storeIndex`: what a forward does, for QSA and for kpool.
* `World`, `World.Step`: who holds which slot and which page, and what can happen.
* `IndexRun`: the states that any schedule leads to, with the memory of a layer.
-/

namespace FreeToken.QsaCompress

variable {α β γ : Type} [Zero α]

/-! ### Index-key compression of the QSA indexer -/

/-- What a program finds out about its row. -/
structure RowInfo where
  endPosition : ℤ
  queryRowStart : ℤ
  queryRowEnd : ℤ
  chunkStartPosition : ℤ
  ringSlot : ℤ
  validRingSlot : Bool
  validRow : Bool

/-- The head of `_compress_qsa_groups_kernel`. -/
def rowInfo (m : Ragged) (numRingSlots compressRatio row : ℕ) : RowInfo :=
  let request := m.tokenToReq row
  let endPosition := m.positions row
  let validRequest : Bool := 0 ≤ request && request < m.numRequests
  let safeRequest := (min (max request 0) (m.numRequests - 1)).toNat
  let queryRowStart := if validRequest then m.cuSeqlens safeRequest else 0
  let queryRowEnd := if validRequest then m.cuSeqlens (safeRequest + 1) else 0
  let ringSlot := if validRequest then m.ringSlots safeRequest else -1
  { endPosition, queryRowStart, queryRowEnd, ringSlot
    chunkStartPosition := endPosition - (row - queryRowStart)
    validRingSlot := 0 ≤ ringSlot && ringSlot < numRingSlots
    validRow := row < m.numRows && validRequest && queryRowStart ≤ row && row < queryRowEnd &&
      (compressRatio : ℤ) - 1 ≤ endPosition }

def memberPosition (r : RowInfo) (compressRatio groupOffset : ℕ) : ℤ :=
  r.endPosition - ((compressRatio : ℤ) - 1 - groupOffset)

def readsRing (r : RowInfo) (compressRatio groupOffset : ℕ) : Bool :=
  r.validRow && !(r.chunkStartPosition ≤ memberPosition r compressRatio groupOffset : Bool) &&
    r.validRingSlot

def ringAddr (r : RowInfo) (ringCapacity compressRatio groupOffset : ℕ) : ℕ :=
  (max r.ringSlot 0).toNat * ringCapacity +
    (memberPosition r compressRatio groupOffset % ringCapacity).toNat

def member (rawKeys ring : ℕ → α) (numRows ringCapacity compressRatio : ℕ) (r : RowInfo)
    (groupOffset : ℕ) : α :=
  let position := memberPosition r compressRatio groupOffset
  let rawRow := r.queryRowStart + position - r.chunkStartPosition
  if r.chunkStartPosition ≤ position then
    if r.validRow && r.queryRowStart ≤ rawRow && rawRow < r.queryRowEnd && rawRow <
      numRows then rawKeys rawRow.toNat
    else 0
  else if readsRing r compressRatio groupOffset then ring
    (ringAddr r ringCapacity compressRatio groupOffset) else 0

/-- The members that are pooled for a row. -/
def qsaCompressGroups (rawKeys ring : ℕ → α) (m : Ragged)
    (numRingSlots ringCapacity compressRatio row : ℕ) : List α :=
  (List.range compressRatio).map
    (member rawKeys ring m.numRows ringCapacity compressRatio
      (rowInfo m numRingSlots compressRatio row))

/-- `first_positions`. -/
def firstPosition (m : Ragged) (numRingSlots compressRatio row : ℕ) : ℤ :=
  let r := rowInfo m numRingSlots compressRatio row
  if r.validRow then r.endPosition - compressRatio + 1 else 0

/-- `qsa_index_norm_rope` with destination rows, with the norm and the rope as a parameter. -/
def qsaIndexNormRope (normRope : γ → ℤ → β) (x : ℕ → γ) (positions : ℕ → ℤ) (destRows : ℕ → ℤ)
    (numRows : ℕ) (out : ℕ → β) : ℕ → β :=
  laneStore numRows (fun row => 0 ≤ destRows row) (fun row => (max (destRows row) 0).toNat)
    (fun row => normRope (x row) (positions row)) out

omit [Zero α] in
/-- `qsa_store_rows`, in a cache of `numBlocks` blocks that is flat. -/
def qsaStoreRows (cache : ℕ → α) (numBlocks pageSize : ℕ) (slotMapping : ℕ → ℤ) (numRows : ℕ)
    (rows : ℕ → α) : ℕ → α :=
  laneStore numRows (fun row => 0 ≤ slotMapping row && slotMapping row < numBlocks * pageSize)
    (fun row => (max (slotMapping row) 0).toNat / pageSize * pageSize +
      (max (slotMapping row) 0).toNat % pageSize) rows cache

end FreeToken.QsaCompress

namespace FreeToken.KpoolCompress

/-! ### Pooled index entries of the kpool indexer -/

variable {κ γ β : Type} [Zero κ] [Zero γ]

/-- What a program finds out about its row. -/
structure RowInfo where
  endPosition : ℤ
  queryRowStart : ℤ
  chunkStartPosition : ℤ
  ringSlot : ℤ
  validRow : Bool

/-- The head of `_compress_kpool_groups_kernel`. -/
def rowInfo (m : Ragged) (ratio row : ℕ) : RowInfo :=
  let request := if row < m.numRows then m.tokenToReq row else -1
  let endPosition := if row < m.numRows then m.positions row else 0
  let validRequest : Bool := 0 ≤ request && request < m.numRequests
  let safeRequest := (min (max request 0) (m.numRequests - 1)).toNat
  let queryRowStart := if validRequest then m.cuSeqlens safeRequest else 0
  { endPosition, queryRowStart
    chunkStartPosition := endPosition - (row - queryRowStart)
    ringSlot := if validRequest then m.ringSlots safeRequest else 0
    validRow := row < m.numRows && validRequest && (ratio : ℤ) - 1 ≤ endPosition }

def memberPosition (r : RowInfo) (ratio off : ℕ) : ℤ := r.endPosition - ((ratio : ℤ) - 1 - off)

def ringRow (r : RowInfo) (ratio off : ℕ) : ℤ :=
  r.ringSlot * ratio + memberPosition r ratio off % ratio

/-- The mask of the loads from the rings. -/
def readsRing (r : RowInfo) (numRingRows ratio off : ℕ) : Bool :=
  r.validRow && !(r.chunkStartPosition ≤ memberPosition r ratio off : Bool) && 0 ≤
    ringRow r ratio off &&
    ringRow r ratio off < numRingRows

def ringAddr (r : RowInfo) (ratio off : ℕ) : ℕ := (max (ringRow r ratio off) 0).toNat

/-- The load of a member, from a stream and its ring. -/
def member {α : Type} [Zero α] (raw ring : ℕ → α) (numRows numRingRows ratio : ℕ) (r : RowInfo)
    (off : ℕ) : α :=
  let position := memberPosition r ratio off
  let rawRow := r.queryRowStart + position - r.chunkStartPosition
  if r.chunkStartPosition ≤ position then
    if r.validRow && 0 ≤ rawRow && rawRow < numRows then raw rawRow.toNat else 0
  else if readsRing r numRingRows ratio off then ring (ringAddr r ratio off) else 0

/-- The members that are pooled for a row, each with its gate. -/
def kpoolGroup (k : ℕ → κ) (gate : ℕ → γ) (ringK : ℕ → κ) (ringG : ℕ → γ) (m : Ragged)
    (numRingRows ratio row : ℕ) :
    List (κ × γ) :=
  (List.range ratio).map fun off =>
    (member k ringK m.numRows numRingRows ratio (rowInfo m ratio row) off,
      member gate ringG m.numRows numRingRows ratio (rowInfo m ratio row) off)

/-- `kpool_compress_store`, with the weighted sum as a parameter. -/
def kpoolCompressStore (pool : List (κ × γ) → β) (k : ℕ → κ) (gate : ℕ → γ) (ringK : ℕ → κ)
    (ringG : ℕ → γ) (m : Ragged) (numRingRows ratio : ℕ) (cmpRows : ℕ → ℤ) (slab : ℕ → β) : ℕ → β :=
  laneStore m.numRows (fun _ => true) (fun row => (cmpRows row).toNat)
    (fun row => pool (kpoolGroup k gate ringK ringG m numRingRows ratio row)) slab

end FreeToken.KpoolCompress

namespace FreeToken

/-- The sizes of a pool, as its constructor checks them. -/
structure IndexGeometry where
  pageSize : ℕ
  ratio : ℕ
  ringCapacity : ℕ
  numPages : ℕ
  numReqSlots : ℕ
  ratio_pos : 0 < ratio
  page_pos : 0 < pageSize
  ratio_dvd : pageSize % ratio = 0
  ratio_le : ratio ≤ ringCapacity

def IndexGeometry.cmpScratchBase (g : IndexGeometry) : ℕ := g.numPages * g.pageSize / g.ratio

/-- The slab row and the ring row of every token. -/
structure IndexPlan where
  cmpRows : ℕ → ℤ
  ringRows : ℕ → ℤ

def Ragged.reqOf (m : Ragged) (row : ℕ) : ℕ := (m.tokenToReq row).toNat

/-- `ring_rows`: only the last rows of a request are kept. -/
def ringRowsOf (m : Ragged) (capacity row : ℕ) : ℤ :=
  let slots := m.ringSlots (m.reqOf row)
  let ends := m.cuSeqlens (m.reqOf row + 1)
  let keep : Bool := ends - capacity ≤ row
  let ringRow := slots * capacity + m.positions row % capacity
  if keep then ringRow else -1

namespace QsaSparse

open QsaCompress

def planIndexWrites (g : IndexGeometry) (m : Ragged) : IndexPlan where
  cmpRows row :=
    let closing : Bool := m.outLoc row % g.ratio = g.ratio - 1
    let scratch := g.cmpScratchBase + m.ringSlots (m.reqOf row)
    if closing then (m.outLoc row / g.ratio : ℕ) else scratch
  ringRows := ringRowsOf m g.ringCapacity

structure IndexCache (α β : Type) where
  ring : ℕ → α
  slab : ℕ → β

variable {α β γ : Type} [Zero α]

/-- `_update_index_cache`, for the rows of a batch. -/
def updateIndexCache (g : IndexGeometry) (pool : List α → γ) (normRope : γ → ℤ → β)
    (cs : List (Chunk α)) (c : IndexCache α β) : IndexCache α β :=
  let m := Chunk.prepareMetadata cs
  let plan := planIndexWrites g m
  let k row := ((Chunk.rawKeys cs)[row]?).getD 0
  let pooled row := pool (qsaCompressGroups k c.ring m g.numReqSlots g.ringCapacity g.ratio row)
  { slab := qsaIndexNormRope normRope pooled (firstPosition m g.numReqSlots g.ratio) plan.cmpRows
      m.numRows c.slab
    ring := qsaStoreRows c.ring g.numReqSlots g.ringCapacity plan.ringRows m.numRows k }

end QsaSparse

namespace DsaIndexerKpool

open QsaCompress KpoolCompress

def planKpoolWrites (g : IndexGeometry) (m : Ragged) : IndexPlan where
  cmpRows row :=
    let closing : Bool := m.positions row % g.ratio = g.ratio - 1
    if closing then (m.outLoc row / g.ratio : ℕ) else g.cmpScratchBase + m.ringSlots (m.reqOf row)
  ringRows := ringRowsOf m g.ratio

structure IndexCache (κ γ β : Type) where
  tailK : ℕ → κ
  tailGate : ℕ → γ
  slab : ℕ → β

variable {κ γ β : Type} [Zero κ] [Zero γ]

/-- `_store_index`, for the rows of a batch. -/
def storeIndex (g : IndexGeometry) (pool : List (κ × γ) → β) (cs : List (Chunk (κ × γ)))
    (c : IndexCache κ γ β) :
    IndexCache κ γ β :=
  let m := Chunk.prepareMetadata cs
  let plan := planKpoolWrites g m
  let k row := (((Chunk.rawKeys cs)[row]?).getD (0, 0)).1
  let gate row := (((Chunk.rawKeys cs)[row]?).getD (0, 0)).2
  { slab := kpoolCompressStore pool k gate c.tailK c.tailGate m (g.numReqSlots * g.ratio) g.ratio
      plan.cmpRows c.slab
    tailK := qsaStoreRows c.tailK g.numReqSlots g.ratio plan.ringRows m.numRows k
    tailGate := qsaStoreRows c.tailGate g.numReqSlots g.ratio plan.ringRows m.numRows gate }

end DsaIndexerKpool

/-! ### Requests, pages and slots over the index entries -/

variable {τ M : Type} {g : IndexGeometry}

/-- A running request: the raw members of its tokens so far, and its pages. -/
structure IndexReq (τ : Type) where
  done : List τ
  pages : List ℕ

/-- The slots of the request table, and the pages of the prefix cache with what is in them: the
place of the page in the prefix, and the members of its tokens. -/
structure World (τ : Type) where
  live : ℕ → Option (IndexReq τ)
  book : ℕ → Option (ℕ × List τ)

def World.empty : World τ := ⟨fun _ => none, fun _ => none⟩

def pageMembers (g : IndexGeometry) (done : List τ) (i : ℕ) : List τ :=
  (done.drop (i * g.pageSize)).take g.pageSize

def groupMembers (g : IndexGeometry) (done : List τ) (k : ℕ) : List τ :=
  (done.drop (k * g.ratio)).take g.ratio

def IndexReq.pageTable (g : IndexGeometry) (r : IndexReq τ) (position : ℕ) : ℕ :=
  (r.pages[position / g.pageSize]?).getD 0 * g.pageSize + position % g.pageSize

def IndexReq.slabRow (g : IndexGeometry) (r : IndexReq τ) (k : ℕ) : ℕ :=
  r.pageTable g (k * g.ratio) / g.ratio

/-- What can happen.  Beside the requests a forward may run padding rows, each at a position and
with some member. -/
inductive IndexEvent (τ : Type) where
  | enter (slot : ℕ) (r : IndexReq τ)
  | grow (slot page : ℕ)
  | forward (reqs : List (ℕ × List τ)) (pads : List (ℕ × τ))
  | publish (slot i : ℕ)
  | adopt (slot i page : ℕ) (members : List τ)
  | finish (slot : ℕ)
  | evict (page : ℕ)

/-- The slot of the padding rows is the last one, and so is their page. -/
def IndexGeometry.dummySlot (g : IndexGeometry) : ℕ := g.numReqSlots - 1

@[inherit_doc IndexGeometry.dummySlot]
def IndexGeometry.dummyPage (g : IndexGeometry) : ℕ := g.numPages - 1

/-- The tokens that a forward has for a slot. -/
def newsOf (reqs : List (ℕ × List τ)) (slot : ℕ) : List τ := (reqs.lookup slot).getD []

def World.chunkOf (g : IndexGeometry) (w : World τ) (q : ℕ × List τ) : Chunk τ :=
  let r := (w.live q.1).getD ⟨[], []⟩
  { tableIdx := q.1, cachedLen := r.done.length, raws := q.2, pageTable := r.pageTable g }

def padChunk (g : IndexGeometry) (q : ℕ × τ) : Chunk τ :=
  { tableIdx := g.dummySlot, cachedLen := q.1, raws := [q.2], pageTable := fun _ => g.dummyPage *
    g.pageSize }

def World.chunks (g : IndexGeometry) (w : World τ) (reqs : List (ℕ × List τ))
    (pads : List (ℕ × τ)) :
    List (Chunk τ) := reqs.map (w.chunkOf g) ++ pads.map (padChunk g)

/-- A page that a running request or the prefix cache holds. -/
def World.InUse (w : World τ) (page : ℕ) : Prop :=
  w.book page ≠ none ∨ ∃ slot r, w.live slot = some r ∧ page ∈ r.pages

inductive World.Step (g : IndexGeometry) : World τ → IndexEvent τ → World τ → Prop where
  /-- A free slot is given to a request.  Its pages so far are those of a prefix hit, and full. -/
  | enter {w : World τ} {slot : ℕ} {r : IndexReq τ} (hfree : w.live slot = none)
      (hslot : slot < g.dummySlot) (hfull : r.done.length = r.pages.length * g.pageSize)
      (hhit : ∀ i page, r.pages[i]? = some page → w.book page = some (i, pageMembers g r.done i)) :
      Step g w (.enter slot r) { w with live := Function.update w.live slot (some r) }
  /-- A request gets a page that nobody holds. -/
  | grow {w : World τ} {slot page : ℕ} {r : IndexReq τ} (hlive : w.live slot = some r)
      (hpage : page < g.dummyPage) (hfree : ¬w.InUse page) :
      Step g w (.grow slot page)
        { w with live := Function.update w.live slot (some { r with pages := r.pages ++ [page] }) }
  /-- Some tokens of some requests, in one forward. -/
  | forward {w : World τ} {reqs : List (ℕ × List τ)} {pads : List (ℕ × τ)}
      (hnodup : (reqs.map Prod.fst).Nodup)
      (hreqs : ∀ q ∈ reqs, ∃ r, w.live q.1 = some r ∧ r.done.length + q.2.length ≤ r.pages.length *
        g.pageSize) :
      Step g w (.forward reqs pads)
        { w with live := fun slot => (w.live slot).map fun r =>
          { r with done := r.done ++ newsOf reqs slot } }
  /-- A full page of a request goes into the prefix cache. -/
  | publish {w : World τ} {slot i page : ℕ} {r : IndexReq τ} (hlive : w.live slot = some r)
      (hfull : (i + 1) * g.pageSize ≤ r.done.length) (hpage : r.pages[i]? = some page) :
      Step g w (.publish slot i)
        { w with book := Function.update w.book page (some (i, pageMembers g r.done i)) }
  /-- A full page of a request is replaced by one of the prefix cache. -/
  | adopt {w : World τ} {slot i page : ℕ} {members : List τ} {r : IndexReq τ}
      (hlive : w.live slot = some r)
      (hfull : (i + 1) * g.pageSize ≤ r.done.length) (hhit : w.book page = some (i, members)) :
      Step g w (.adopt slot i page members)
        { w with live := Function.update w.live slot (some
          { done := r.done.take (i * g.pageSize) ++ members ++ r.done.drop ((i + 1) * g.pageSize)
            pages := r.pages.set i page }) }
  /-- A request leaves, and its slot is free. -/
  | finish {w : World τ} {slot : ℕ} :
      Step g w (.finish slot) { w with live := Function.update w.live slot none }
  /-- A page leaves the prefix cache. -/
  | evict {w : World τ} {page : ℕ} :
      Step g w (.evict page) { w with book := Function.update w.book page none }

/-- What an event does to the memory of a layer. -/
def memoryAfter (g : IndexGeometry) (store : List (Chunk τ) → M → M) (w : World τ) (m : M) :
    IndexEvent τ → M
  | .forward reqs pads => store (w.chunks g reqs pads) m
  | _ => m

/-- The worlds and memories that a schedule leads to, from any memory. -/
inductive IndexRun (g : IndexGeometry) (store : List (Chunk τ) → M → M) : World τ → M → Prop where
  | start {m : M} : IndexRun g store World.empty m
  | step {w w' : World τ} {m : M} {e : IndexEvent τ} (hrun : IndexRun g store w m)
      (hstep : World.Step g w e w') :
      IndexRun g store w' (memoryAfter g store w m e)

end FreeToken
