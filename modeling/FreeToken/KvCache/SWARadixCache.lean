import FreeToken.KvCache.RadixTreeNode

/-!
# `SWARadixCache`

The sliding-window radix cache.  `value` is canonical and shared; a node whose window copy has
been freed is a tombstone (`swaTombstone`), and a lock pins the full KV of a path and the window
copy of its trailing window only.
-/

namespace FreeToken

open TrieEdge RadixTreeNode

def eventStride : ℤ := 2 ^ 24

structure SWARadixCache where
  pageSize : ℕ
  slidingWindowSize : ℕ
  nodes : List RadixTreeNode := []
  /-- `full_evictable` and `full_protected`. -/
  full : KvSizes := {}
  /-- `swa_evictable` and `swa_protected`. -/
  swa : KvSizes := {}
  clk : ℕ := 0
  uuid : ℕ := 0
deriving DecidableEq, Repr

structure SWAMatch where
  kvIndices : List Slot
  cachedLen : ℕ
  node : Path
deriving DecidableEq, Repr

structure SWAEvictResult where
  kvIndices : List Slot
  swaIndices : List Slot
deriving DecidableEq, Repr

namespace SWARadixCache

/-! ### Matching -/

/-- The locals of `match_prefix`; `matchSinceTomb = none` is the infinite start at the root. -/
structure MatchState where
  nodes : List RadixTreeNode
  node : Path := []
  value : List (List Slot) := []
  matchSinceTomb : Option ℕ := none
  bestValueLen : ℕ := 0
  bestNode : Path := []
  prefixPos : ℕ := 0

/-- `match_since_tomb >= self.sliding_window_size`. -/
def coversWindow (window : ℕ) : Option ℕ → Bool
  | none => true
  | some k => window ≤ k

namespace MatchState

/-- Record the present boundary if the live run that ends there covers the window. -/
def commit (window : ℕ) (s : MatchState) : MatchState :=
  if coversWindow window s.matchSinceTomb then
    { s with bestValueLen := s.value.length, bestNode := s.node }
  else s

/-- A tombstone ends the live run: record the boundary above `child` and start counting again. -/
def endRun (window : ℕ) (s : MatchState) (child : RadixTreeNode) : MatchState :=
  if child.swaTombstone then { s.commit window with matchSinceTomb := some 0 } else s

/-- Move to the end of `child`. -/
def enter (s : MatchState) (child : RadixTreeNode) : MatchState :=
  { s with value := s.value ++ [child.value]
           matchSinceTomb :=
             if child.swaTombstone then s.matchSinceTomb
             else s.matchSinceTomb.map (· + child.length)
           node := stop child
           prefixPos := s.prefixPos + child.length }

end MatchState

/-- The loop of `match_prefix`. -/
def matchLoop (ps window : ℕ) (inputIds : List Token) : ℕ → MatchState → MatchState
  | 0, s => s
  | fuel + 1, s =>
    if s.prefixPos < inputIds.length then
      match childAt ps s.nodes s.node (inputIds.drop s.prefixPos) with
      | none => s
      | some child =>
        let s := s.endRun window child
        let matchLen := alignDown (child.getMatchLen (inputIds.drop s.prefixPos)) ps
        if matchLen = 0 then s
        else if matchLen < child.length then
          { s with nodes := splitNode s.nodes child matchLen }.enter (child.splitAt matchLen).1
        else matchLoop ps window inputIds fuel (s.enter child)
    else s

/-- One step of `_stamp_path`. -/
def stampStep (base : ℤ) (off : ℕ) (n : RadixTreeNode) : ℕ × RadixTreeNode :=
  (off + 1, { n with timestamp := base - off })

variable (c : SWARadixCache)

def stampPath (node : Path) : SWARadixCache :=
  { c with clk := c.clk + 1
           nodes := (climb (stampStep ((c.clk + 1 : ℕ) * eventStride)) node.length 0 c.nodes node).2
             }

def matchPrefix (inputIds : List Token) : SWARadixCache × SWAMatch :=
  let s := (matchLoop c.pageSize c.slidingWindowSize inputIds inputIds.length
    { nodes := c.nodes }).commit c.slidingWindowSize
  let kv := (s.value.take s.bestValueLen).flatten
  ({ c with nodes := s.nodes }.stampPath s.bestNode, ⟨kv, kv.length, s.bestNode⟩)

/-! ### Inserting -/

def tick : SWARadixCache × ℤ := ({ c with clk := c.clk + 1 }, (c.clk + 1 : ℕ) * eventStride)

def addChild (parent : Path) (ids : List Token) (kv : List Slot) (tombstone : Bool) :
    SWARadixCache × Path :=
  let (c, t) := c.tick
  let child : RadixTreeNode :=
    { start := parent, key := ids, value := kv, timestamp := t, swaTombstone := tombstone }
  ({ c with nodes := c.nodes ++ [child]
            full := { c.full with evictable := c.full.evictable + child.length }
            swa := if tombstone then c.swa
              else { c.swa with evictable := c.swa.evictable + child.length } }, stop child)

/-- Adopt the slots `kv` into the tombstoned node `child` and clear its tombstone. -/
def revive (child : RadixTreeNode) (kv : List Slot) : SWARadixCache :=
  let (c, t) := c.tick
  { c with nodes := setNode c.nodes child
             { child with value := kv, swaTombstone := false, timestamp := t }
           swa := { c.swa with evictable := c.swa.evictable + child.length } }

/-- What `insert` does at a matched node that ends past `update_kv_after_len`: the cache and the
indices freed. -/
def reconcile (child : RadixTreeNode) (segKv : List Slot) (total swaEvictedSeqlen : ℕ) :
    SWARadixCache × List Slot :=
  if child.swaTombstone then
    if 0 < child.refCount then
      -- a full-locked reader still gathers the node's current slots
      (c, segKv)
    else if swaEvictedSeqlen ≤ total then
      (c.revive child segKv, child.value)
    else if swaEvictedSeqlen < total + child.length then
      let start := swaEvictedSeqlen - total
      let tail := (child.splitAt start).2
      ({ c with nodes := splitNode c.nodes child start }.revive tail (segKv.drop start),
        tail.value ++ segKv.take start)
    else (c, segKv)
  else (c, segKv)

/-- The locals of `insert`. -/
structure InsertState where
  cache : SWARadixCache
  node : Path := []
  total : ℕ := 0
  freed : List Slot := []

/-- One matched node of `insert`: the whole node, or the part above a split. -/
def insertStep (kvIndices : List Slot) (swaEvictedSeqlen updateKvAfterLen : ℕ) (s : InsertState)
    (child : RadixTreeNode) : InsertState :=
  let segKv := (kvIndices.drop s.total).take child.length
  let r := if updateKvAfterLen < s.total + child.length then
      s.cache.reconcile child segKv s.total swaEvictedSeqlen
    else (s.cache, [])
  { cache := r.1, node := stop child, total := s.total + child.length, freed := s.freed ++ r.2 }

/-- The loop of `insert`. -/
def insertLoop (inputIds : List Token) (kvIndices : List Slot)
    (swaEvictedSeqlen updateKvAfterLen : ℕ) : ℕ → InsertState → InsertState
  | 0, s => s
  | fuel + 1, s =>
    if s.total < inputIds.length then
      match childAt s.cache.pageSize s.cache.nodes s.node (inputIds.drop s.total) with
      | none => s
      | some child =>
        let matchLen := alignDown (child.getMatchLen (inputIds.drop s.total)) s.cache.pageSize
        if matchLen = 0 then s
        else if matchLen < child.length then
          insertStep kvIndices swaEvictedSeqlen updateKvAfterLen
            { s with cache := { s.cache with nodes := splitNode s.cache.nodes child matchLen } }
            (child.splitAt matchLen).1
        else
          insertLoop inputIds kvIndices swaEvictedSeqlen updateKvAfterLen fuel
            (insertStep kvIndices swaEvictedSeqlen updateKvAfterLen s child)
    else s

/-- The suffix of `insert` that is not in the tree yet: a tombstone below the window frontier and
a live leaf above it. -/
def addSuffix (node : Path) (suffixIds : List Token) (suffixKv : List Slot)
    (boundary : ℕ) : SWARadixCache :=
  let boundary := min boundary (suffixIds.length - c.pageSize)
  let r := if 0 < boundary then
      c.addChild node (suffixIds.take boundary) (suffixKv.take boundary) true
    else (c, node)
  let suffixIds := suffixIds.drop boundary
  let suffixKv := suffixKv.drop boundary
  if suffixIds.length ≠ 0 then (r.1.addChild r.2 suffixIds suffixKv false).1 else r.1

/-- The cache, the matched length and the indices freed. -/
def insert (inputIds : List Token) (kvIndices : List Slot)
    (swaEvictedSeqlen updateKvAfterLen : ℕ) : SWARadixCache × ℕ × List Slot :=
  let insertLen := alignDown inputIds.length c.pageSize
  let inputIds := inputIds.take insertLen
  let kvIndices := kvIndices.take insertLen
  let s := insertLoop inputIds kvIndices swaEvictedSeqlen updateKvAfterLen insertLen { cache := c }
  (if s.total < insertLen then
      s.cache.addSuffix s.node (inputIds.drop s.total) (kvIndices.drop s.total)
        (min swaEvictedSeqlen insertLen - s.total)
    else s.cache, s.total, s.freed)

/-! ### Locking -/

/-- The locals of `inc_lock`. -/
structure IncState where
  full : KvSizes
  swa : KvSizes
  uuid : ℕ
  swaLocked : ℕ := 0
  swaUuidForLock : Option ℕ := none

/-- Take a window reference on a live node. -/
def incSwa (window : ℕ) (s : IncState) (n : RadixTreeNode) : IncState × RadixTreeNode :=
  let swa : KvSizes := if n.swaRefCount = 0 then
      ⟨s.swa.evictable - n.length, s.swa.protectedSize + n.length⟩ else s.swa
  let n := { n with swaRefCount := n.swaRefCount + 1 }
  let swaLocked := s.swaLocked + n.length
  if window ≤ swaLocked then
    match n.swaUuid with
    | none => ({ s with swa := swa, swaLocked := swaLocked, uuid := s.uuid + 1
                        swaUuidForLock := some (s.uuid + 1) },
        { n with swaUuid := some (s.uuid + 1) })
    | some u => ({ s with swa := swa, swaLocked := swaLocked, swaUuidForLock := some u }, n)
  else ({ s with swa := swa, swaLocked := swaLocked }, n)

/-- One step of `inc_lock`. -/
def incStep (window : ℕ) (s : IncState) (n : RadixTreeNode) : IncState × RadixTreeNode :=
  let r := incRef s.full n
  let s := { s with full := r.1 }
  if s.swaLocked < window && !r.2.swaTombstone then incSwa window s r.2 else (s, r.2)

/-- The cache and `swa_uuid_for_lock`. -/
def incLock (node : Path) : SWARadixCache × Option ℕ :=
  let r := climb (incStep c.slidingWindowSize) node.length
    { full := c.full, swa := c.swa, uuid := c.uuid } c.nodes node
  ({ c with full := r.1.full, swa := r.1.swa, uuid := r.1.uuid, nodes := r.2 }, r.1.swaUuidForLock)

/-- The locals of `dec_lock`. -/
structure DecState where
  full : KvSizes
  swa : KvSizes
  decSwa : Bool

/-- One step of `dec_lock`. -/
def decStep (swaUuidForLock : Option ℕ) (s : DecState) (n : RadixTreeNode) :
    DecState × RadixTreeNode :=
  let r := decRef s.full n
  let s := { s with full := r.1 }
  if s.decSwa && !r.2.swaTombstone && 0 < r.2.swaRefCount then
    let n := { r.2 with swaRefCount := r.2.swaRefCount - 1 }
    ({ s with
        swa := if n.swaRefCount = 0 then
            ⟨s.swa.evictable + n.length, s.swa.protectedSize - n.length⟩ else s.swa
        decSwa := !(swaUuidForLock.isSome && n.swaUuid == swaUuidForLock) }, n)
  else (s, r.2)

def decLock (node : Path) (swaUuidForLock : Option ℕ) (skipSwa : Bool) : SWARadixCache :=
  let r := climb (decStep swaUuidForLock) node.length
    { full := c.full, swa := c.swa, decSwa := !skipSwa } c.nodes node
  { c with full := r.1.full, swa := r.1.swa, nodes := r.2 }

/-! ### Evicting -/

/-- `_cascade_swa_tombstone_leaves` reclaims tombstones. -/
abbrev isTombstone (n : RadixTreeNode) : Bool := n.swaTombstone

/-- The window currency of an evicted leaf: `swa_evictable` and the window copies to free. -/
def takeSwa (s : ℤ × List Slot) (n : RadixTreeNode) : ℤ × List Slot :=
  if n.swaTombstone then s else (s.1 - n.length, s.2 ++ n.value)

def evictFull (H : Heapq timestamp) (numTokens : ℕ) : SWARadixCache × SWAEvictResult :=
  let s := evictFullLoop H isTombstone takeSwa numTokens (c.nodes.length + 1)
    { nodes := c.nodes, fullEvictable := c.full.evictable, extra := (c.swa.evictable, [])
      heap := H.heapify (evictableLeaves c.nodes) }
  ({ c with nodes := s.nodes
            full := { c.full with evictable := s.fullEvictable }
            swa := { c.swa with evictable := s.extra.1 } }, ⟨s.kv, s.extra.2⟩)

/-- The locals of `evict_swa`. -/
structure EvictSwaState where
  nodes : List RadixTreeNode
  fullEvictable : ℤ
  swaEvictable : ℤ
  cands : List RadixTreeNode
  kv : List Slot := []
  swa : List Slot := []
  freed : ℕ := 0

/-- Evict the window copy of the candidate `node`. -/
def evictSwaNode (s : EvictSwaState) (node : RadixTreeNode) (cands : List RadixTreeNode) :
    EvictSwaState :=
  if isLeaf s.nodes (stop node) && node.refCount = 0 then
    let r := cascade isTombstone (unlinkNode s.nodes node) node.start
    { nodes := r.nodes
      fullEvictable := s.fullEvictable - node.length - r.freed
      swaEvictable := s.swaEvictable - node.length
      cands := cands
      kv := s.kv ++ node.value ++ r.kv
      swa := s.swa ++ node.value
      freed := s.freed + node.length }
  else
    { s with
      nodes := setNode s.nodes node { node with swaTombstone := true }
      swaEvictable := s.swaEvictable - node.length
      cands := cands
      swa := s.swa ++ node.value
      freed := s.freed + node.length }

/-- The loop of `evict_swa`. -/
def evictSwaLoop (H : Heapq timestamp) (numTokens : ℕ) : ℕ → EvictSwaState → EvictSwaState
  | 0, s => s
  | fuel + 1, s =>
    if s.freed < numTokens then
      match H.heappop s.cands with
      | none => s
      | some (node, cands) =>
        if node.swaTombstone || node.swaRefCount ≠ 0 then
          evictSwaLoop H numTokens fuel { s with cands := cands }
        else evictSwaLoop H numTokens fuel (evictSwaNode s node cands)
    else s

def evictSwa (H : Heapq timestamp) (numTokens : ℕ) : SWARadixCache × SWAEvictResult :=
  let s := evictSwaLoop H numTokens (c.nodes.length + 1)
    { nodes := c.nodes, fullEvictable := c.full.evictable, swaEvictable := c.swa.evictable
      cands := H.heapify (c.nodes.filter fun n => !n.swaTombstone && n.swaRefCount = 0) }
  ({ c with nodes := s.nodes
            full := { c.full with evictable := s.fullEvictable }
            swa := { c.swa with evictable := s.swaEvictable } }, ⟨s.kv, s.swa⟩)

/-- The loop of `trim_head_swa`: the tree, `swa_evictable` and the window copies freed. -/
def trimLoop (ps : ℕ) (inputIds : List Token) (keepFrom : ℕ) :
    ℕ → List RadixTreeNode → ℤ → Path → ℕ → List Slot → List RadixTreeNode × ℤ × List Slot
  | 0, nodes, swaEvictable, _, _, freed => (nodes, swaEvictable, freed)
  | fuel + 1, nodes, swaEvictable, node, pos, freed =>
    if pos < keepFrom then
      match childAt ps nodes node (inputIds.drop pos) with
      | none => (nodes, swaEvictable, freed)
      | some child =>
        if keepFrom < pos + child.length then (nodes, swaEvictable, freed)
        else if !child.swaTombstone && child.swaRefCount = 0 && !isLeaf nodes (stop child) then
          trimLoop ps inputIds keepFrom fuel
            (setNode nodes child { child with swaTombstone := true })
            (swaEvictable - child.length) (stop child) (pos + child.length) (freed ++ child.value)
        else
          trimLoop ps inputIds keepFrom fuel nodes swaEvictable (stop child)
            (pos + child.length) freed
    else (nodes, swaEvictable, freed)

/-- The cache and the window copies to release. -/
def trimHeadSwa (inputIds : List Token) (keepFrom : ℕ) : SWARadixCache × List Slot :=
  if keepFrom = 0 then (c, [])
  else
    let c := (c.matchPrefix (inputIds.take keepFrom)).1
    let r := trimLoop c.pageSize inputIds keepFrom keepFrom c.nodes c.swa.evictable [] 0 []
    ({ c with nodes := r.1, swa := { c.swa with evictable := r.2.1 } }, r.2.2)

end SWARadixCache

end FreeToken
