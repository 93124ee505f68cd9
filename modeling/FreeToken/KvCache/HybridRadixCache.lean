import FreeToken.KvCache.RadixTreeNode

/-!
# `HybridRadixCache`

The radix cache of models with linear attention.  A node may own a snapshot of the linear state
at its end (`mambaValue`, a slot of the state pool); a match can resume only from such a node.
-/

namespace FreeToken

open TrieEdge RadixTreeNode

structure HybridRadixCache where
  pageSize : ℕ
  nodes : List RadixTreeNode := []
  /-- `full_evictable` and `full_protected`. -/
  full : KvSizes := {}
  /-- `mamba_evictable` and `mamba_protected`. -/
  mamba : KvSizes := {}
deriving DecidableEq, Repr

structure HybridMatch where
  kvIndices : List Slot
  cachedLen : ℕ
  mambaValue : Option ℕ
  node : Path
deriving DecidableEq, Repr

structure EvictResult where
  kvIndices : List Slot
  mambaSlots : List ℕ
deriving DecidableEq, Repr

namespace HybridRadixCache

/-! ### Matching and inserting -/

/-- The walk up of `match_prefix`, over the nodes from the matched one to the root: the deepest
node with a live snapshot and the length of its path. -/
def deepestSnapshot : List RadixTreeNode → ℕ → Option (RadixTreeNode × ℕ)
  | [], _ => none
  | cur :: ns, endLen =>
    if cur.mambaValue.isSome then some (cur, endLen) else deepestSnapshot ns (endLen - cur.length)

def pathLen (nodes : List RadixTreeNode) (node : Path) : ℕ :=
  ((ancestors nodes node).map RadixTreeNode.length).sum

variable (c : HybridRadixCache)

def matchPrefix (inputIds : List Token) (tic : ℤ) : HybridRadixCache × HybridMatch :=
  let (nodes, node, _) := treeWalk c.pageSize c.nodes inputIds tic
  ({ c with nodes := nodes },
    match deepestSnapshot (ancestors nodes node) (pathLen nodes node) with
    | none => ⟨[], 0, none, []⟩
    | some (cur, endLen) =>
      ⟨getMatchedIndices nodes (stop cur), endLen, cur.mambaValue, stop cur⟩)

/-- Donate the snapshot `mambaValue` to the node; `true` if it is not taken. -/
def donate (node : Path) (mambaValue : ℕ) : HybridRadixCache × Bool :=
  match edgeAt c.nodes node with
  | none => (c, true)
  | some n =>
    if n.mambaValue.isSome then (c, true)
    else
      ({ c with nodes := setNode c.nodes n { n with mambaValue := some mambaValue }
                mamba := if n.mambaRefCount = 0 then
                    { c.mamba with evictable := c.mamba.evictable + 1 } else c.mamba }, false)

/-- The cache, the matched length and `mamba_exist`. -/
def insert (inputIds : List Token) (kvIndices : List Slot) (mambaValue : ℕ) (tic now : ℤ) :
    HybridRadixCache × ℕ × Bool :=
  let insertLen := alignDown inputIds.length c.pageSize
  let inputIds := inputIds.take insertLen
  let kvIndices := kvIndices.take insertLen
  let (nodes, node, prefixLen) := treeWalk c.pageSize c.nodes inputIds tic
  let r : HybridRadixCache × Path :=
    if prefixLen ≠ insertLen then
      let newNode : RadixTreeNode :=
        { start := node, key := inputIds.drop prefixLen, value := kvIndices.drop prefixLen
          timestamp := now }
      ({ c with nodes := nodes ++ [newNode]
                full := { c.full with evictable := c.full.evictable + newNode.length } },
        stop newNode)
    else ({ c with nodes := nodes }, node)
  let d := r.1.donate r.2 mambaValue
  (d.1, prefixLen, d.2)

/-! ### Locking -/

/-- Take a reference on the snapshot of the node. -/
def incMamba (node : Path) : HybridRadixCache :=
  match edgeAt c.nodes node with
  | none => c
  | some n =>
    if n.mambaValue.isSome then
      { c with nodes := setNode c.nodes n { n with mambaRefCount := n.mambaRefCount + 1 }
               mamba := if n.mambaRefCount = 0 then
                   ⟨c.mamba.evictable - 1, c.mamba.protectedSize + 1⟩ else c.mamba }
    else c

def incLock (node : Path) : HybridRadixCache :=
  let c := c.incMamba node
  let r := climb incRef node.length c.full c.nodes node
  { c with full := r.1, nodes := r.2 }

/-- Give back a reference on the snapshot of the node. -/
def decMamba (node : Path) : HybridRadixCache :=
  match edgeAt c.nodes node with
  | none => c
  | some n =>
    if n.mambaValue.isSome && 0 < n.mambaRefCount then
      { c with nodes := setNode c.nodes n { n with mambaRefCount := n.mambaRefCount - 1 }
               mamba := if n.mambaRefCount - 1 = 0 then
                   ⟨c.mamba.evictable + 1, c.mamba.protectedSize - 1⟩ else c.mamba }
    else c

def decLock (node : Path) : HybridRadixCache :=
  let c := c.decMamba node
  let r := climb decRef node.length c.full c.nodes node
  { c with full := r.1, nodes := r.2 }

/-! ### Evicting -/

/-- `_cascade_tombstone_leaves` reclaims nodes without a snapshot. -/
abbrev hasNoSnapshot (n : RadixTreeNode) : Bool := n.mambaValue.isNone

/-- `_free_node_mamba`: `mamba_evictable` and the snapshots freed. -/
def freeNodeMamba (s : ℤ × List ℕ) (n : RadixTreeNode) : ℤ × List ℕ :=
  match n.mambaValue with
  | none => s
  | some v => (if n.mambaRefCount = 0 then s.1 - 1 else s.1, s.2 ++ [v])

def evictFull (H : Heapq timestamp) (numTokens : ℕ) : HybridRadixCache × EvictResult :=
  let s := evictFullLoop H hasNoSnapshot freeNodeMamba numTokens (c.nodes.length + 1)
    { nodes := c.nodes, fullEvictable := c.full.evictable, extra := (c.mamba.evictable, [])
      heap := H.heapify (evictableLeaves c.nodes) }
  ({ c with nodes := s.nodes
            full := { c.full with evictable := s.fullEvictable }
            mamba := { c.mamba with evictable := s.extra.1 } }, ⟨s.kv, s.extra.2⟩)

/-- The locals of `evict_mamba`. -/
structure EvictMambaState where
  nodes : List RadixTreeNode
  fullEvictable : ℤ
  /-- `mamba_evictable` and `mamba`. -/
  mamba : ℤ × List ℕ
  cands : List RadixTreeNode
  kv : List Slot := []
  freed : ℕ := 0

/-- Evict the snapshot of the candidate `node`. -/
def evictMambaNode (s : EvictMambaState) (node : RadixTreeNode) (cands : List RadixTreeNode) :
    EvictMambaState :=
  if isLeaf s.nodes (stop node) && node.refCount = 0 then
    let r := cascade hasNoSnapshot (unlinkNode s.nodes node) node.start
    { nodes := r.nodes
      fullEvictable := s.fullEvictable - node.length - r.freed
      mamba := freeNodeMamba s.mamba node
      cands := cands
      kv := s.kv ++ node.value ++ r.kv
      freed := s.freed + 1 }
  else
    { s with nodes := setNode s.nodes node { node with mambaValue := none }
             mamba := freeNodeMamba s.mamba node
             cands := cands
             freed := s.freed + 1 }

/-- The loop of `evict_mamba`. -/
def evictMambaLoop (H : Heapq timestamp) (num : ℕ) : ℕ → EvictMambaState → EvictMambaState
  | 0, s => s
  | fuel + 1, s =>
    if s.freed < num then
      match H.heappop s.cands with
      | none => s
      | some (node, cands) =>
        if node.mambaValue.isNone || node.mambaRefCount ≠ 0 then
          evictMambaLoop H num fuel { s with cands := cands }
        else evictMambaLoop H num fuel (evictMambaNode s node cands)
    else s

def evictMamba (H : Heapq timestamp) (num : ℕ) : HybridRadixCache × EvictResult :=
  let s := evictMambaLoop H num (c.nodes.length + 1)
    { nodes := c.nodes, fullEvictable := c.full.evictable, mamba := (c.mamba.evictable, [])
      cands := H.heapify (c.nodes.filter fun n => n.mambaValue.isSome && n.mambaRefCount = 0) }
  ({ c with nodes := s.nodes
            full := { c.full with evictable := s.fullEvictable }
            mamba := { c.mamba with evictable := s.mamba.1 } }, ⟨s.kv, s.mamba.2⟩)

end HybridRadixCache

end FreeToken
